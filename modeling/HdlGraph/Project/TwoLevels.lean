import HdlGraph.Library.Chunks
import HdlGraph.Parse.Extractor.TopItems
import HdlGraph.Project.Located

/-!
This module contains the loops that many commands share: they go over the files, over what a file
contains, and over whatever has an edge from there. It contains what such loops see of a loaded
project, and when they see all the nodes of some kinds.
-/

namespace HdlGraph

open scoped List
open Blocks

namespace InMemoryGraph

-- `top` says what is done with an item of a file and `below` what is done with a node below the
-- item
def visitTwoLevels {β : Type} (g : InMemoryGraph) (top : Text → NodeId → GraphNode → List β)
    (below : Text → GraphNode → Edge → GraphNode → List β) (fileMap : List (Text × NodeId))
    : List β :=
  fileMap.flatMap fun (file, fid) => (g.getOutgoing fid).flatMap fun e =>
    if e.edgeType = .contains then
      match g.getNode e.target with
      | some node =>
        top file fid node ++ (g.getOutgoing e.target).flatMap fun ce =>
          (g.getNode ce.target).elim [] (below file node ce)
      | none => []
    else
      []

theorem visitTwoLevels_flatMap {β γ : Type} (g : InMemoryGraph) (f : β → List γ)
    (top : Text → NodeId → GraphNode → List β)
    (below : Text → GraphNode → Edge → GraphNode → List β) (fileMap : List (Text × NodeId))
    : (g.visitTwoLevels top below fileMap).flatMap f
        = g.visitTwoLevels (fun file fid node => (top file fid node).flatMap f)
            (fun file node ce child => (below file node ce child).flatMap f) fileMap := by
  simp only [visitTwoLevels, List.flatMap_assoc]
  apply List.flatMap_congr
  intro entry _
  apply List.flatMap_congr
  intro e _
  split
  . split
    . rw [List.flatMap_append, List.flatMap_assoc]
      congr 1
      apply List.flatMap_congr
      intro ce _
      cases g.getNode ce.target <;> rfl
    . rfl
  . rfl

end InMemoryGraph

/-- What is read off a node is what is read off the node with its names. -/
structure ReadsTwoLevels {β : Type} (symbols : SymbolTable)
    (top : Text → NodeId → GraphNode → List β)
    (below : Text → GraphNode → Edge → GraphNode → List β)
    (top' : Text → NodeId → NamedNode → List β)
    (below' : Text → NamedNode → EdgeType → NamedNode → List β) : Prop where
  top : ∀ file fid node content, GraphNode.named symbols node = some content →
    top file fid node = top' file fid content
  below : ∀ file node content ce child child', GraphNode.named symbols node = some content →
    GraphNode.named symbols child = some child' →
    below file node ce child = below' file content ce.edgeType child'

namespace TopItem

-- What is seen of an item: its node and what is directly below, as often as there are edges to the
-- node
def seen {β : Type} (top : NamedNode → List β) (below : NamedNode → EdgeType → NamedNode → List β)
    (b : NodeId) (item : TopItem) : List β :=
  (List.replicate item.visits ()).flatMap fun _ =>
    top (item.rootAt b) ++ (item.childrenAt b).flatMap fun c => below (item.rootAt b) c.1 c.2

theorem map_seen {β γ : Type} (f : β → γ) (top : NamedNode → List β)
    (below : NamedNode → EdgeType → NamedNode → List β) (b : NodeId) (item : TopItem)
    : (item.seen top below b).map f
        = item.seen (fun node => (top node).map f)
          (fun node edge child => (below node edge child).map f) b := by
  rw [seen, seen, List.map_flatMap]
  apply List.flatMap_congr
  intro _ _
  rw [List.map_append, List.map_flatMap]

end TopItem

namespace ProjectState

variable {parse : Text → Option Cst → Cst} {prepare : Text → Text → Text} {files : List FileRead}
variable {st : InMemoryGraph × GraphExtractor × Dict Text NodeId} {x : Nat × FileRead}
  {outline : FileOutline}
variable {y : Nat × TopItem}

theorem subgraphAt_of_some (hout : outlineOf parse prepare x.2 = some outline)
    : subgraphAt parse prepare x = ((outline.nodesAt x.1).map some, outline.edgesAt x.1) := by
  rw [subgraphAt, hout, Option.elim_some]

theorem regular_of_outlineOf {file : FileRead} (hout : outlineOf parse prepare file = some outline)
    : ∀ item ∈ outline.items, item.Regular := by
  obtain ⟨content, _, rfl⟩ := Option.map_eq_some_iff.mp hout
  exact GraphExtractor.regular_fileOutline _

theorem regular_of_mem_placedItems (hout : outlineOf parse prepare x.2 = some outline)
    (hy : y ∈ outline.placedItems x.1)
    : y.2.Regular := by
  have hitems := outline.map_snd_placedItems x.1
  exact regular_of_outlineOf hout y.2 (hitems ▸ List.mem_map_of_mem hy)

theorem exists_outlineOf_of_last (hlast : lastUnder x.2.rel (placed parse prepare files) = some x)
    : ∃ outline, outlineOf parse prepare x.2 = some outline := by
  obtain ⟨content, hcontent⟩ := Option.isSome_iff_exists.mp (mem_of_lastUnder hlast).2.2
  exact ⟨_, outlineOf_of_some parse prepare hcontent⟩

theorem covers_item (hout : outlineOf parse prepare x.2 = some outline)
    (hy : y ∈ outline.placedItems x.1) {content : NamedNode}
    (hcontent : content ∈ y.2.nodesAt x.1 y.1)
    : some content ∈ (subgraphAt parse prepare x).1
        ∧ Covers (blockSize parse prepare) x content.id := by
  have hmem : some content ∈ (subgraphAt parse prepare x).1 := by
    rw [subgraphAt_of_some hout, outline.nodesAt_eq]
    exact List.mem_map_of_mem (List.mem_cons_of_mem _ (List.mem_flatMap.mpr ⟨y, hy, hcontent⟩))
  exact ⟨hmem, covers_of_mem_nodes hmem⟩

/-- Every edge to a node of a loaded project is one that nodes of its kind hang by. -/
theorem Loaded.hangsBy_of_mem_getIncoming (h : Loaded parse prepare files st) {node : GraphNode}
    {content : NamedNode} (hnode : node ∈ st.1.allNodes)
    (hnamed : node.named st.2.1.symbols = some content) {e : Edge}
    (he : e ∈ st.1.getIncoming node.id)
    : content.kind.HangsBy e.edgeType := by
  obtain ⟨log, hlog⟩ := h.reachable.logs
  have ⟨hmem, htarget⟩ := hlog.mem_getIncoming.mp he
  rw [GraphNode.id_of_named hnamed] at htarget
  obtain ⟨content', x, hnamed', hx, hcontent⟩ := h.exists_named hnode
  obtain rfl := Option.some.inj (hnamed.symm.trans hnamed')
  obtain ⟨x', hx', he⟩ :=
    List.mem_flatMap.mp ((hlog.perm_allEdges.symm.trans h.edges).mem_iff.mp hmem)
  obtain rfl :=
    eq_of_covers placed_pairwise hx' hx (htarget ▸ (covers_of_mem_edges he).2)
      (covers_of_mem_nodes hcontent)
  cases hout : outlineOf parse prepare x'.2 with
  | none => simp [subgraphAt, hout] at he
  | some outline =>
    rw [subgraphAt_of_some hout] at he hcontent
    obtain ⟨_, hcontent, ⟨rfl⟩⟩ := List.mem_map.mp hcontent
    exact FileOutline.hangsBy_of_mem_edgesAt (regular_of_outlineOf hout) he hcontent htarget

section Seen

variable {β : Type} {top : Text → NodeId → GraphNode → List β}
  {below : Text → GraphNode → Edge → GraphNode → List β}
variable {top' : Text → NodeId → NamedNode → List β}
  {below' : Text → NamedNode → EdgeType → NamedNode → List β}

variable (parse prepare files) in
def seenIn (top' : Text → NodeId → NamedNode → List β)
    (below' : Text → NamedNode → EdgeType → NamedNode → List β) (x : Nat × FileRead) : List β :=
  if lastUnder x.2.rel (placed parse prepare files) = some x then
    (outlineOf parse prepare x.2).elim [] fun outline =>
      (outline.placedItems x.1).flatMap fun y => y.2.seen (top' x.2.rel x.1) (below' x.2.rel) y.1
  else
    []

theorem map_seenIn {γ : Type} (f : β → γ) (top' : Text → NodeId → NamedNode → List β)
    (below' : Text → NamedNode → EdgeType → NamedNode → List β) (x : Nat × FileRead)
    : (seenIn parse prepare files top' below' x).map f
        = seenIn parse prepare files (fun file fid node => (top' file fid node).map f)
            (fun file node edge child => (below' file node edge child).map f) x := by
  rw [seenIn, seenIn]
  split
  . cases outlineOf parse prepare x.2 with
    | none => rfl
    | some outline =>
      rw [Option.elim_some, Option.elim_some, List.map_flatMap]
      exact List.flatMap_congr fun y _ => TopItem.map_seen f _ _ y.1 y.2
  . rfl

namespace Loaded

theorem exists_getNode_item (h : Loaded parse prepare files st)
    (hx : x ∈ placed parse prepare files) (hout : outlineOf parse prepare x.2 = some outline)
    (hy : y ∈ outline.placedItems x.1) {content : NamedNode}
    (hcontent : content ∈ y.2.nodesAt x.1 y.1)
    : Covers (blockSize parse prepare) x content.id
        ∧ ∃ node, st.1.getNode content.id = some node
          ∧ node.named st.2.1.symbols = some content := by
  have ⟨hmem, hcovers⟩ := covers_item hout hy hcontent
  exact ⟨hcovers, h.exists_getNode hx hmem⟩

theorem perm_seen_edge (h : Loaded parse prepare files st) (hx : x ∈ placed parse prepare files)
    (hout : outlineOf parse prepare x.2 = some outline) (hy : y ∈ outline.placedItems x.1)
    (hreads : ReadsTwoLevels st.2.1.symbols top below top' below') (hvisits : y.2.visits ≠ 0)
    (file : Text) (fid : NodeId)
    : (match st.1.getNode y.1 with
        | some node => top file fid node ++ (st.1.getOutgoing y.1).flatMap fun ce =>
            (st.1.getNode ce.target).elim [] (below file node ce)
        | none => [])
        ~ top' file fid (y.2.rootAt y.1)
          ++ (y.2.childrenAt y.1).flatMap fun c => below' file (y.2.rootAt y.1) c.1 c.2 := by
  have hlt := outline.lt_of_mem_placedItems hy
  obtain ⟨hcovers, node, hnode, hnamed⟩ :=
    h.exists_getNode_item hx hout hy (TopItem.rootAt_mem_nodesAt hvisits)
  have hget : st.1.getNode y.1 = some node := hnode
  rw [hget]
  simp only [hreads.top file fid node _ hnamed]
  apply List.Perm.append_left
  refine ((h.perm_getOutgoing hx hcovers).flatMap_right _).trans (.of_eq ?_)
  have hsource : (outline.edgesAt x.1).filter (·.source = (y.2.rootAt y.1).id)
      = (y.2.childrenAt y.1).map fun c => ⟨y.1, c.2.id, c.1⟩ :=
    (outline.filter_source_placedItem hy).trans (TopItem.edgesOf_placements hlt y.2)
  rw [subgraphAt_of_some hout, hsource, List.flatMap_map]
  apply List.flatMap_congr
  intro c hc
  obtain ⟨_, child, hchild, hchild'⟩ :=
    h.exists_getNode_item hx hout hy (TopItem.mem_nodesAt_of_mem_childrenAt x.1 hc)
  simp only [hchild, Option.elim_some]
  exact hreads.below file node _ _ child _ hnamed hchild'

theorem perm_seen_file (h : Loaded parse prepare files st) (hx : x ∈ placed parse prepare files)
    (hout : outlineOf parse prepare x.2 = some outline)
    (hreads : ReadsTwoLevels st.2.1.symbols top below top' below') (file : Text)
    : ((st.1.getOutgoing x.1).flatMap fun e =>
        if e.edgeType = .contains then
          match st.1.getNode e.target with
          | some node => top file x.1 node ++ (st.1.getOutgoing e.target).flatMap fun ce =>
              (st.1.getNode ce.target).elim [] (below file node ce)
          | none => []
        else [])
        ~ (outline.placedItems x.1).flatMap fun y =>
          y.2.seen (top' file x.1) (below' file) y.1 := by
  have hcovers : Covers (blockSize parse prepare) x x.1 := by
    rw [Covers, blockSize, hout]
    exact ⟨Nat.le_refl _, Nat.lt_add_of_pos_right outline.size_pos⟩
  refine ((h.perm_getOutgoing hx hcovers).flatMap_right _).trans ?_
  rw [subgraphAt_of_some hout, outline.filter_source_root, List.flatMap_assoc]
  apply List.Perm.flatMap_left
  intro y hy
  have hregular := regular_of_mem_placedItems hout hy
  rw [TopItem.filter_source_root (outline.lt_of_mem_placedItems hy) hregular, TopItem.seen,
    ← List.map_replicate (f := fun _ => (⟨x.1, y.1, .contains⟩ : Edge)) (a := ()), List.flatMap_map]
  apply List.Perm.flatMap_left
  intro u hu
  have hvisits : y.2.visits ≠ 0 := (List.mem_replicate.mp hu).1
  rw [if_pos rfl]
  exact h.perm_seen_edge hx hout hy hreads hvisits file x.1

/-- What the loops see of a loaded project. -/
theorem perm_visitTwoLevels (h : Loaded parse prepare files st)
    (hreads : ReadsTwoLevels st.2.1.symbols top below top' below') {fileMap : List (Text × NodeId)}
    (hfileMap : fileMap ~ st.2.2.toList)
    : st.1.visitTwoLevels top below fileMap
        ~ (placed parse prepare files).flatMap (seenIn parse prepare files top' below') := by
  refine ((hfileMap.trans h.perm_fileMap).flatMap_right _).trans ?_
  rw [List.flatMap_map, Chunks.flatMap_filter]
  apply List.Perm.flatMap_left
  intro x hx
  rw [seenIn]
  split
  . next hlast =>
    obtain ⟨outline, hout⟩ := exists_outlineOf_of_last hlast
    rw [hout, Option.elim_some]
    exact h.perm_seen_file hx hout hreads x.2.rel
  . rfl

end Loaded
end Seen
end ProjectState

/-! ## The nodes of some kinds -/

-- The kinds in question, and which of them the loops look for among the items and below them
structure Selection where
  kinds : NodeKind Text → Bool
  top : NodeKind Text → Bool
  below : EdgeType → NodeKind Text → Bool
  kinds_of_top : ∀ {kind}, top kind → kinds kind
  kinds_of_below : ∀ {edge kind}, below edge kind → kinds kind
  top_of_kinds : ∀ {kind : NodeKind Text}, kind.isClass = false → kind.IsTopLevel
    ∨ (∃ name, kind = .module name) →
    kinds kind → top kind
  sourceFile : kinds .sourceFile = false

namespace TopItem

variable (s : Selection)

def ShownBelow (os : List Outline) : Prop :=
  ∀ o ∈ os, (s.kinds o.label.kind → s.below o.label.edge o.label.kind)
    ∧ ∀ d ∈ Rose.labelsAll o.children, ¬s.kinds d.kind

/-- Nodes of the kinds are only where the loops get exactly once. -/
def Shows (item : TopItem) : Prop :=
  if item.visits = 1 then ShownBelow s item.outline.children else ∀ kind ∈ item.kinds, ¬s.kinds kind

def seenNodes (b : NodeId) (item : TopItem) : List NamedNode :=
  item.seen (fun node => if s.top node.kind then [node] else [])
    (fun _ edge node => if s.below edge node.kind then [node] else []) b

variable {s}

variable (s) in
def found (b : NodeId) (item : TopItem) : List NamedNode :=
  (if s.top (item.rootAt b).kind then [item.rootAt b] else [])
    ++ (item.childrenAt b).flatMap fun c => if s.below c.1 c.2.kind then [c.2] else []

theorem seenNodes_eq (b : NodeId) (item : TopItem)
    : item.seenNodes s b = (List.replicate item.visits ()).flatMap fun _ => item.found s b := rfl

theorem found_eq (b : NodeId) (item : TopItem)
    : item.found s b
        = (if s.top (item.rootAt b).kind then [item.rootAt b] else [])
          ++ ((Rose.placeAll b (b + 1) item.outline.children).filter fun z =>
              z.parent = b ∧ s.below z.label.edge z.label.kind).map fun z =>
                z.label.namedNode z.id := by
  rw [found, ← Chunks.flatMap_filter, ← List.map_eq_flatMap, childrenAt, List.filter_map,
    List.filter_filter, List.map_map]
  congr 2
  apply List.filter_congr
  intro z _
  simp [Bool.and_comm, Declared.namedNode]

theorem filter_nodesAt (root b : NodeId) (item : TopItem)
    : (item.nodesAt root b).filter (s.kinds ·.kind)
        ~ (if item.visits ≠ 0 ∧ s.kinds (item.rootAt b).kind then [item.rootAt b] else [])
          ++ ((Rose.placeAll b (b + 1) item.outline.children).filter fun z =>
            s.kinds z.label.kind).map fun z =>
              z.label.namedNode z.id := by
  refine ((item.perm_nodesAt root b).filter _).trans (.of_eq ?_)
  rw [List.filter_append, ExtractM.nodesOf, List.filter_map]
  congr 1
  split <;> simp_all [List.filter_cons]

theorem found_subset {b : NodeId} {item : TopItem} (root : NodeId) (h : item.visits ≠ 0)
    : item.found s b ⊆ (item.nodesAt root b).filter (s.kinds ·.kind) := by
  intro node hnode
  rw [(item.filter_nodesAt root b).mem_iff]
  rw [found_eq, List.mem_append] at hnode
  rw [List.mem_append]
  rcases hnode with hnode | hnode
  . left
    split at hnode
    . next htop => rwa [if_pos ⟨h, s.kinds_of_top htop⟩]
    . simp at hnode
  . right
    obtain ⟨z, hz, rfl⟩ := List.mem_map.mp hnode
    have ⟨hz, hbelow⟩ := List.mem_filter.mp hz
    exact List.mem_map.mpr
      ⟨z, List.mem_filter.mpr ⟨hz, s.kinds_of_below (of_decide_eq_true hbelow).2⟩, rfl⟩

theorem perm_map_found_iff {root b : NodeId} {item : TopItem} (hregular : item.Regular)
    (h : item.visits = 1) {γ : Type} (g : NamedNode → γ)
    : (item.found s b).map g ~ ((item.nodesAt root b).filter (s.kinds ·.kind)).map g
        ↔ ShownBelow s item.outline.children := by
  have htop : s.top (item.rootAt b).kind = s.kinds (item.rootAt b).kind := by
    have himp : s.kinds (item.rootAt b).kind → s.top (item.rootAt b).kind := by
      cases item with
      | declared o =>
        have hkind := hregular.declared o rfl
        refine s.top_of_kinds ?_ (Or.inl hkind)
        change o.label.kind.isClass = false
        generalize o.label.kind = kind at hkind
        cases kind <;> simp_all [NodeKind.IsTopLevel, NodeKind.isClass]
      | «class» o => simp [visits] at h
      | module name pos items => exact s.top_of_kinds rfl (Or.inr ⟨name, rfl⟩)
    rw [Bool.eq_iff_iff]
    exact ⟨s.kinds_of_top, himp⟩
  rw [found_eq, List.map_append, htop]
  have hnodes := (item.filter_nodesAt (s := s) root b).map g
  rw [List.map_append] at hnodes
  simp only [h, ne_eq, one_ne_zero, not_false_iff, true_and] at hnodes
  rw [List.Perm.congr_right hnodes, List.perm_append_left_iff, List.map_map, List.map_map,
    Chunks.filter_perm_iff]
  . simp only [Bool.decide_and, Bool.decide_eq_true, Bool.and_eq_true, decide_eq_true_eq]
    exact Rose.forall_placeAll_iff (Nat.lt_succ_self b) (r := fun d => s.kinds d.kind)
      (s := fun d => s.below d.edge d.kind) item.outline.children
  . intro z _ hz
    exact s.kinds_of_below (of_decide_eq_true hz).2

theorem perm_map_seenNodes_iff {root b : NodeId} {item : TopItem} (hregular : item.Regular)
    {γ : Type} (g : NamedNode → γ) (hnodup : ((item.nodesAt root b).map g).Nodup)
    : (item.seenNodes s b).map g ~ ((item.nodesAt root b).filter (s.kinds ·.kind)).map g
        ↔ item.Shows s := by
  have hnone : ((item.nodesAt root b).filter (s.kinds ·.kind)).map g = []
      ↔ ∀ kind ∈ item.kinds, ¬s.kinds kind := by
    have hmem := fun kind => (item.map_kind_nodesAt root b).mem_iff (a := kind)
    simp only [← hmem, List.forall_mem_map, List.map_eq_nil_iff, List.filter_eq_nil_iff]
  rw [Shows, seenNodes_eq]
  match hvisits : item.visits with
  | 0 =>
    rw [if_neg (by simp), ← hnone, List.replicate_zero, List.flatMap_nil, List.map_nil,
      List.nil_perm]
  | 1 =>
    rw [if_pos rfl, List.replicate_one, List.flatMap_singleton]
    exact perm_map_found_iff hregular hvisits g
  | n + 2 =>
    rw [if_neg (by simp), ← hnone, List.replicate_succ, List.replicate_succ, List.flatMap_cons,
      List.flatMap_cons, List.map_append, List.map_append]
    constructor
    . intro hperm
      -- what is found twice is not there twice
      have hsublist :=
        (List.filter_sublist (p := fun node => s.kinds node.kind) (l := item.nodesAt root b)).map g
      have htwice := hperm.nodup_iff.mpr (hnodup.sublist hsublist)
      have hdisjoint := (List.nodup_append'.mp htwice).2.2
      have hnil : (item.found s b).map g = [] := by
        rw [List.eq_nil_iff_forall_not_mem]
        exact fun a ha => hdisjoint ha (List.mem_append_left _ ha)
      have hfound := List.map_eq_nil_iff.mp hnil
      have hnone : (List.replicate n ()).flatMap (fun _ => item.found s b) = [] := by
        rw [List.flatMap_eq_nil_iff]
        exact fun _ _ => hfound
      rw [hnone, hnil] at hperm
      exact hperm.symm.eq_nil
    . intro hnil
      have hfound :=
        List.eq_nil_of_subset_nil (List.map_eq_nil_iff.mp hnil ▸ found_subset root (by omega))
      rw [hfound, hnil]
      simp

theorem seenNodes_subperm {item : TopItem} (hregular : item.Regular)
    (hclass : ∀ kind : NodeKind Text, kind.isClass = true → s.top kind = false)
    (hmember : ∀ edge (kind : NodeKind Text), kind.IsClassMember → s.below edge kind = false)
    (root b : NodeId)
    : item.seenNodes s b <+~ (item.nodesAt root b).filter (s.kinds ·.kind) := by
  have hfound : item.visits = 1 →
      item.seenNodes s b <+~ (item.nodesAt root b).filter (s.kinds ·.kind) := by
    intro hvisits
    rw [seenNodes_eq, hvisits, List.replicate_one, List.flatMap_singleton, found_eq]
    have hnodes := item.filter_nodesAt (s := s) root b
    rw [hvisits] at hnodes
    refine List.Subperm.trans (List.Sublist.subperm (List.Sublist.append ?_ ?_)) hnodes.symm.subperm
    . have htop' : s.top (item.rootAt b).kind → s.kinds (item.rootAt b).kind := s.kinds_of_top
      cases htop : s.top (item.rootAt b).kind <;> simp_all
    . apply List.Sublist.map
      apply List.monotone_filter_right
      intro z hz
      exact s.kinds_of_below (of_decide_eq_true hz).2
  cases item with
  | declared o => exact hfound rfl
  | «class» o =>
    have ⟨hkind, hmembers⟩ := hregular.classItem o rfl
    have hbelow : ∀ c ∈ (TopItem.class o).childrenAt b, s.below c.1 c.2.kind = false := by
      intro c hc
      have hmem := List.mem_map_of_mem (f := fun c : EdgeType × NamedNode => (c.1, c.2.kind)) hc
      rw [map_snd_childrenAt] at hmem
      obtain ⟨child, hchild, heq⟩ := List.mem_map.mp hmem
      rw [← (Prod.mk.inj heq).2]
      exact hmember _ _ (hmembers child hchild)
    have hnone : (TopItem.class o).found s b = [] := by
      rw [found, List.append_eq_nil_iff, List.flatMap_eq_nil_iff]
      refine ⟨?_, fun c hc => by rw [hbelow c hc]; rfl⟩
      exact if_neg (Bool.not_eq_true _ ▸ hclass _ hkind)
    rw [seenNodes_eq, List.flatMap_eq_nil_iff.mpr fun _ _ => hnone]
    exact List.nil_subperm
  | module name pos items =>
    by_cases hname : name = []
    . rw [seenNodes_eq, visits, if_pos hname]
      exact List.nil_subperm
    . exact hfound (if_neg hname)

end TopItem

namespace ProjectState

section

variable (parse : Text → Option Cst → Cst) (prepare : Text → Text → Text) (files : List FileRead)
  (s : Selection)

def nodesIn (x : Nat × FileRead) : List (Text × NamedNode) :=
  (outlineOf parse prepare x.2).elim [] fun outline =>
    ((outline.nodesAt x.1).filter (s.kinds ·.kind)).map fun node => (x.2.rel, node)

def itemsOf (x : Nat × FileRead) : List TopItem :=
  (outlineOf parse prepare x.2).elim [] FileOutline.items

def nodesOfKinds : List (Text × NamedNode) :=
  (placed parse prepare files).flatMap (nodesIn parse prepare s)

def seenNodesIn : Nat × FileRead → List (Text × NamedNode) :=
  seenIn parse prepare files (fun file _ node => if s.top node.kind then [(file, node)] else [])
    fun file _ edge node => if s.below edge node.kind then [(file, node)] else []

def seenNodes : List (Text × NamedNode) :=
  (placed parse prepare files).flatMap (seenNodesIn parse prepare files s)

/--
The nodes of the kinds are where the loops get exactly once, and no path of their files is loaded
again.
-/
def ShowsAll : Prop :=
  ∀ x ∈ placed parse prepare files, ∀ outline, outlineOf parse prepare x.2 = some outline →
    (∀ item ∈ outline.items, item.Shows s)
      ∧ ((∃ item ∈ outline.items, ∃ kind ∈ item.kinds, s.kinds kind) →
          lastUnder x.2.rel (placed parse prepare files) = some x)

end

variable {parse : Text → Option Cst → Cst} {prepare : Text → Text → Text} {files : List FileRead}
  {s : Selection}
variable {st : InMemoryGraph × GraphExtractor × Dict Text NodeId} {x : Nat × FileRead}
  {outline : FileOutline}

theorem nodesIn_of_none (hout : outlineOf parse prepare x.2 = none)
    : nodesIn parse prepare s x = [] := by
  rw [nodesIn, hout, Option.elim_none]

theorem nodesIn_of_some (hout : outlineOf parse prepare x.2 = some outline)
    : nodesIn parse prepare s x
        = ((outline.placedItems x.1).flatMap fun y =>
          (y.2.nodesAt x.1 y.1).filter (s.kinds ·.kind)).map fun node =>
            (x.2.rel, node) := by
  rw [nodesIn, hout, Option.elim_some, outline.nodesAt_eq,
    List.filter_cons_of_neg (by simp [FileOutline.rootNode, s.sourceFile]), List.filter_flatMap]

theorem seenNodesIn_of_last (hout : outlineOf parse prepare x.2 = some outline)
    (hlast : lastUnder x.2.rel (placed parse prepare files) = some x)
    : seenNodesIn parse prepare files s x
        = ((outline.placedItems x.1).flatMap fun y => y.2.seenNodes s y.1).map fun node =>
          (x.2.rel, node) := by
  rw [seenNodesIn, seenIn, if_pos hlast, hout, Option.elim_some, List.map_flatMap]
  apply List.flatMap_congr
  intro y _
  rw [TopItem.seenNodes, TopItem.map_seen]
  simp only [apply_ite (List.map _), List.map_cons, List.map_nil]

theorem seenNodesIn_of_not_last (hlast : lastUnder x.2.rel (placed parse prepare files) ≠ some x)
    : seenNodesIn parse prepare files s x = [] := by
  rw [seenNodesIn, seenIn, if_neg hlast]

theorem nodesIn_eq_nil_iff (hout : outlineOf parse prepare x.2 = some outline)
    : nodesIn parse prepare s x = []
        ↔ ¬∃ item ∈ outline.items, ∃ kind ∈ item.kinds, s.kinds kind := by
  have hitems := outline.map_snd_placedItems x.1
  rw [nodesIn_of_some hout, List.map_eq_nil_iff, List.flatMap_eq_nil_iff, ← hitems]
  simp only [List.filter_eq_nil_iff]
  push Not
  rw [List.forall_mem_map]
  apply forall₂_congr
  intro y _
  simp only [← (y.2.map_kind_nodesAt x.1 y.1).mem_iff, List.forall_mem_map]

theorem length_nodesOfKinds
    : (nodesOfKinds parse prepare files s).length
        = (((placed parse prepare files).flatMap (itemsOf parse prepare)).flatMap
            TopItem.kinds).countP s.kinds := by
  rw [nodesOfKinds, List.flatMap_assoc, List.length_flatMap, List.countP_flatMap]
  congr 1
  apply List.map_congr_left
  intro x _
  cases hout : outlineOf parse prepare x.2 with
  | none => simp [nodesIn_of_none hout, itemsOf, hout]
  | some outline =>
    have hitems := outline.map_snd_placedItems x.1
    rw [Function.comp_apply, itemsOf, hout, Option.elim_some, ← hitems, List.flatMap_map,
      nodesIn_of_some hout, List.length_map, List.length_flatMap, List.countP_flatMap]
    congr 1
    apply List.map_congr_left
    intro y _
    rw [Function.comp_apply, ← (y.2.map_kind_nodesAt x.1 y.1).countP_eq, List.countP_map,
      List.countP_eq_length_filter]
    rfl

theorem covers_of_mem_nodesIn {z : Text × NamedNode} (hz : z ∈ nodesIn parse prepare s x)
    : z.1 = x.2.rel ∧ Covers (blockSize parse prepare) x z.2.id := by
  cases hout : outlineOf parse prepare x.2 with
  | none => simp [nodesIn, hout] at hz
  | some outline =>
    rw [nodesIn, hout, Option.elim_some] at hz
    obtain ⟨node, hnode, rfl⟩ := List.mem_map.mp hz
    have hid := FileOutline.id_mem_nodesAt (List.mem_of_mem_filter hnode)
    refine ⟨rfl, ?_⟩
    rwa [Covers, blockSize, hout, Option.elim_some]

theorem seenNodesIn_subset (x : Nat × FileRead)
    : seenNodesIn parse prepare files s x ⊆ nodesIn parse prepare s x := by
  by_cases hlast : lastUnder x.2.rel (placed parse prepare files) = some x
  . obtain ⟨outline, hout⟩ := exists_outlineOf_of_last hlast
    rw [seenNodesIn_of_last hout hlast, nodesIn_of_some hout]
    apply List.map_subset
    intro node hnode
    obtain ⟨y, hy, hnode⟩ := List.mem_flatMap.mp hnode
    rw [TopItem.seenNodes_eq] at hnode
    obtain ⟨u, hu, hnode⟩ := List.mem_flatMap.mp hnode
    exact List.mem_flatMap.mpr ⟨y, hy, TopItem.found_subset x.1 (List.mem_replicate.mp hu).1 hnode⟩
  . rw [seenNodesIn_of_not_last hlast]
    exact List.nil_subset _

theorem perm_map_items_iff (hout : outlineOf parse prepare x.2 = some outline)
    : (((outline.placedItems x.1).flatMap fun y => y.2.seenNodes s y.1).map NamedNode.id)
          ~ ((outline.placedItems x.1).flatMap fun y =>
            (y.2.nodesAt x.1 y.1).filter (s.kinds ·.kind)).map NamedNode.id
        ↔ ∀ item ∈ outline.items, item.Shows s := by
  have hitems := outline.map_snd_placedItems x.1
  have hids : ∀ y : Nat × TopItem, ∀ node ∈ y.2.nodesAt x.1 y.1, Covers TopItem.size y node.id := by
    intro y node hnode
    have hid := (y.2.ids_nodesAt x.1 y.1).subset (List.mem_map_of_mem hnode)
    rwa [List.mem_range'_1] at hid
  have hnodup : ∀ y : Nat × TopItem, ((y.2.nodesAt x.1 y.1).map NamedNode.id).Nodup := by
    intro y
    obtain ⟨ids, hperm, hsub⟩ := y.2.ids_nodesAt x.1 y.1
    rw [← hperm.nodup_iff]
    exact hsub.nodup (List.nodup_range' ..)
  have hseen : ∀ y : Nat × TopItem, y.2.seenNodes s y.1 ⊆ y.2.nodesAt x.1 y.1 := by
    intro y node hnode
    rw [TopItem.seenNodes_eq] at hnode
    obtain ⟨u, hu, hnode⟩ := List.mem_flatMap.mp hnode
    exact List.mem_of_mem_filter (TopItem.found_subset x.1 (List.mem_replicate.mp hu).1 hnode)
  rw [List.map_flatMap, List.map_flatMap, Chunks.flatMap_perm_iff_of_apart (Covers TopItem.size),
    ← hitems, List.forall_mem_map]
  . apply forall₂_congr
    intro y hy
    exact TopItem.perm_map_seenNodes_iff (regular_of_mem_placedItems hout hy) _ (hnodup y)
  . intro y _ id hid
    obtain ⟨node, hnode, rfl⟩ := List.mem_map.mp hid
    exact hids y node (hseen y hnode)
  . intro y _ id hid
    obtain ⟨node, hnode, rfl⟩ := List.mem_map.mp hid
    exact hids y node (List.mem_of_mem_filter hnode)
  . have hpairwise := outline.placedItems_pairwise x.1
    exact hpairwise.imp fun hdisjoint id hy hz => not_disjoint_of_covers hy hz hdisjoint

theorem perm_map_id_iff_of_outlineOf (hout : outlineOf parse prepare x.2 = some outline)
    : (seenNodesIn parse prepare files s x).map (·.2.id) ~ (nodesIn parse prepare s x).map (·.2.id)
        ↔ (∀ item ∈ outline.items, item.Shows s)
          ∧ ((∃ item ∈ outline.items, ∃ kind ∈ item.kinds, s.kinds kind) →
              lastUnder x.2.rel (placed parse prepare files) = some x) := by
  by_cases hlast : lastUnder x.2.rel (placed parse prepare files) = some x
  . rw [seenNodesIn_of_last hout hlast, nodesIn_of_some hout, List.map_map, List.map_map]
    refine (perm_map_items_iff hout).trans ?_
    simp [hlast]
  . have hnil := nodesIn_eq_nil_iff (s := s) hout
    rw [seenNodesIn_of_not_last hlast, List.map_nil, List.nil_perm, List.map_eq_nil_iff, hnil]
    constructor
    . intro hnone
      refine ⟨?_, fun hsome => absurd hsome hnone⟩
      intro item hitem
      push Not at hnone
      rw [TopItem.Shows]
      split
      . intro o ho
        have hlabels : ∀ d ∈ o.labels, ¬s.kinds d.kind := by
          intro d hd
          apply hnone item hitem
          apply List.mem_append_right
          exact List.mem_map_of_mem (Rose.labels_subset_labelsAll ho hd)
        rw [Rose.labels_eq, List.forall_mem_cons] at hlabels
        exact ⟨fun hkind => absurd hkind hlabels.1, hlabels.2⟩
      . exact hnone item hitem
    . intro hall hsome
      exact hlast (hall.2 hsome)

/--
The loops get to each node of the kinds exactly once if and only if the nodes are where they look.
-/
theorem perm_map_id_iff
    : (seenNodes parse prepare files s).map (·.2.id)
        ~ (nodesOfKinds parse prepare files s).map (·.2.id)
        ↔ ShowsAll parse prepare files s := by
  rw [seenNodes, nodesOfKinds, List.map_flatMap, List.map_flatMap,
    Chunks.flatMap_perm_iff_of_apart (Covers (blockSize parse prepare))]
  . apply forall₂_congr
    intro x _
    cases hout : outlineOf parse prepare x.2 with
    | none =>
      have hsubset : seenNodesIn parse prepare files s x ⊆ nodesIn parse prepare s x :=
        seenNodesIn_subset x
      have hseen := List.eq_nil_of_subset_nil (nodesIn_of_none hout ▸ hsubset)
      simp [hseen, nodesIn_of_none hout]
    | some outline =>
      rw [perm_map_id_iff_of_outlineOf hout]
      simp
  . intro x _ id hid
    obtain ⟨z, hz, rfl⟩ := List.mem_map.mp hid
    exact (covers_of_mem_nodesIn (seenNodesIn_subset x hz)).2
  . intro x _ id hid
    obtain ⟨z, hz, rfl⟩ := List.mem_map.mp hid
    exact (covers_of_mem_nodesIn hz).2
  . have hpairwise : (placed parse prepare files).Pairwise (Disjoint (blockSize parse prepare)) :=
      placed_pairwise
    exact hpairwise.imp fun hdisjoint id hx hy => not_disjoint_of_covers hx hy hdisjoint

theorem seenNodes_subset
    : seenNodes parse prepare files s ⊆ nodesOfKinds parse prepare files s := by
  intro z hz
  obtain ⟨x, hx, hz⟩ := List.mem_flatMap.mp hz
  exact List.mem_flatMap.mpr ⟨x, hx, seenNodesIn_subset x hz⟩

theorem eq_of_mem_nodesOfKinds {z z' : Text × NamedNode}
    (hz : z ∈ nodesOfKinds parse prepare files s) (hz' : z' ∈ nodesOfKinds parse prepare files s)
    (hid : z.2.id = z'.2.id)
    : z = z' := by
  obtain ⟨x, hx, hz⟩ := List.mem_flatMap.mp hz
  obtain ⟨x', hx', hz'⟩ := List.mem_flatMap.mp hz'
  have hcovers := covers_of_mem_nodesIn hz
  have hcovers' := covers_of_mem_nodesIn hz'
  have hpairwise : (placed parse prepare files).Pairwise (Disjoint (blockSize parse prepare)) :=
    placed_pairwise
  obtain rfl := eq_of_covers hpairwise hx hx' hcovers.2 (hid ▸ hcovers'.2)
  cases hout : outlineOf parse prepare x.2 with
  | none => simp [nodesIn_of_none hout] at hz
  | some outline =>
    rw [nodesIn, hout, Option.elim_some] at hz hz'
    obtain ⟨node, hnode, rfl⟩ := List.mem_map.mp hz
    obtain ⟨node', hnode', rfl⟩ := List.mem_map.mp hz'
    have hsame := List.inj_on_of_nodup_map (outline.ids_nodup x.1) (List.mem_of_mem_filter hnode)
      (List.mem_of_mem_filter hnode') hid
    rw [hsame]

theorem perm_iff
    : seenNodes parse prepare files s ~ nodesOfKinds parse prepare files s
        ↔ ShowsAll parse prepare files s := by
  rw [← perm_map_id_iff]
  constructor
  . intro hperm
    exact hperm.map _
  . intro hperm
    exact Chunks.perm_of_perm_map seenNodes_subset
      (fun z hz z' hz' => eq_of_mem_nodesOfKinds hz hz') hperm

/--
The loops find nothing if and only if nothing of the kinds is right below an item that they get to.
-/
theorem seenNodes_eq_nil_iff (htop : ∀ kind, s.top kind = false)
    : seenNodes parse prepare files s = []
        ↔ ∀ x ∈ placed parse prepare files,
          lastUnder x.2.rel (placed parse prepare files) = some x →
          ∀ outline, outlineOf parse prepare x.2 = some outline →
            ∀ item ∈ outline.items, item.visits ≠ 0 →
            ∀ o ∈ item.outline.children, ¬s.below o.label.edge o.label.kind := by
  have hitem : ∀ (b : NodeId) (item : TopItem), item.seenNodes s b = [] ↔ (item.visits ≠ 0 →
      ∀ o ∈ item.outline.children, ¬s.below o.label.edge o.label.kind) := by
    intro b item
    have hchildren : (∀ c ∈ item.childrenAt b, ¬s.below c.1 c.2.kind)
        ↔ ∀ o ∈ item.outline.children, ¬s.below o.label.edge o.label.kind := by
      have hmap := List.forall_mem_map (l := item.childrenAt b) (f := fun c => (c.1, c.2.kind))
        (P := fun c => ¬s.below c.1 c.2)
      rw [← hmap, TopItem.map_snd_childrenAt, List.forall_mem_map]
    rw [TopItem.seenNodes_eq, List.flatMap_eq_nil_iff, ← hchildren]
    simp [TopItem.found, htop, List.mem_replicate]
  rw [seenNodes, List.flatMap_eq_nil_iff]
  apply forall₂_congr
  intro x _
  by_cases hlast : lastUnder x.2.rel (placed parse prepare files) = some x
  . obtain ⟨outline, hout⟩ := exists_outlineOf_of_last hlast
    have hitems := outline.map_snd_placedItems x.1
    rw [seenNodesIn_of_last hout hlast, List.map_eq_nil_iff, List.flatMap_eq_nil_iff]
    simp only [hitem, hlast, hout, true_imp_iff, Option.some.injEq, forall_eq', ← hitems,
      List.forall_mem_map]
  . rw [seenNodesIn_of_not_last hlast]
    simp [hlast]

/-! ## The nodes of a loaded graph -/

namespace Loaded

theorem perm_filterMap_allNodes (h : Loaded parse prepare files st) {γ : Type}
    {f : GraphNode → Option γ} (g : NamedNode → γ)
    (hf : ∀ node content, node.named st.2.1.symbols = some content →
      f node = if s.kinds content.kind then some (g content) else none)
    : st.1.allNodes.filterMap f ~ (nodesOfKinds parse prepare files s).map fun z => g z.2 := by
  let select (named : Option NamedNode) : Option γ :=
    named.bind fun content => if s.kinds content.kind then some (g content) else none
  have hgraph : st.1.allNodes.filterMap f
      = (st.1.allNodes.map (·.named st.2.1.symbols)).filterMap select := by
    rw [List.filterMap_map]
    apply List.filterMap_congr
    intro node hnode
    obtain ⟨content, _, hnamed, _⟩ := h.exists_named hnode
    simp only [Function.comp_apply, select, hnamed, Option.bind_some, hf node content hnamed]
  have hfiles : ((placed parse prepare files).flatMap fun x =>
    (subgraphAt parse prepare x).1).filterMap select
      = (nodesOfKinds parse prepare files s).map fun z => g z.2 := by
    rw [List.filterMap_flatMap, nodesOfKinds, List.map_flatMap]
    apply List.flatMap_congr
    intro x _
    cases hout : outlineOf parse prepare x.2 with
    | none =>
      rw [subgraphAt, hout, nodesIn_of_none hout, Option.elim_none,
        List.filterMap_nil, List.map_nil]
    | some outline =>
      rw [subgraphAt_of_some hout, nodesIn, hout, Option.elim_some, List.filterMap_map,
        List.map_map, ← List.filterMap_eq_map, List.filterMap_filter]
      rfl
  rw [hgraph, ← hfiles]
  exact h.nodes.filterMap select

theorem perm_filter_allNodes (h : Loaded parse prepare files st)
    {kinds : NodeKind InternedString → Bool}
    (hkinds : ∀ kind named, kind.resolve st.2.1.symbols = some named → kinds kind = s.kinds named)
    : (st.1.allNodes.filter (kinds ·.kind)).map GraphNode.id
        ~ (nodesOfKinds parse prepare files s).map (·.2.id) := by
  rw [← List.filterMap_eq_map, List.filterMap_filter]
  apply h.perm_filterMap_allNodes NamedNode.id
  intro node content hnamed
  obtain ⟨named, hresolve, rfl⟩ := Option.map_eq_some_iff.mp hnamed
  rw [hkinds _ _ hresolve]
  rfl

/-- What a command reports whose loops look for these kinds. -/
theorem perm_flatMap_visit_named (h : Loaded parse prepare files st) {β γ : Type}
    {top : Text → NodeId → GraphNode → List β}
    {below : Text → GraphNode → Edge → GraphNode → List β} (f : β → List γ)
    (g : Text → NamedNode → γ)
    (htop : ∀ file fid node content, node.named st.2.1.symbols = some content →
      (top file fid node).flatMap f = if s.top content.kind then [g file content] else [])
    (hbelow : ∀ file node ce child content, child.named st.2.1.symbols = some content →
      (below file node ce child).flatMap f = if s.below ce.edgeType content.kind
      then [g file content] else [])
    {fileMap : List (Text × NodeId)} (hfileMap : fileMap ~ st.2.2.toList)
    : (st.1.visitTwoLevels top below fileMap).flatMap f
        ~ (seenNodes parse prepare files s).map fun z => g z.1 z.2 := by
  have hreads : ReadsTwoLevels st.2.1.symbols (fun file fid node => (top file fid node).flatMap f)
      (fun file node ce child => (below file node ce child).flatMap f)
      (fun file _ node => if s.top node.kind then [g file node] else [])
      (fun file _ edge node => if s.below edge node.kind then [g file node] else []) := by
    constructor
    . intro file fid node content hnode
      exact htop file fid node content hnode
    . intro file node content ce child child' _ hchild
      exact hbelow file node ce child child' hchild
  rw [st.1.visitTwoLevels_flatMap]
  refine (h.perm_visitTwoLevels hreads hfileMap).trans (.of_eq ?_)
  rw [seenNodes, List.map_flatMap]
  apply List.flatMap_congr
  intro x _
  rw [seenNodesIn, map_seenIn]
  simp only [apply_ite (List.map _), List.map_cons, List.map_nil]

theorem perm_flatMap_visit (h : Loaded parse prepare files st) {β γ : Type}
    {top : Text → NodeId → GraphNode → List β}
    {below : Text → GraphNode → Edge → GraphNode → List β} (f : β → List γ) (g : Text → NodeId → γ)
    (htop : ∀ file fid node named, node.kind.resolve st.2.1.symbols = some named →
      (top file fid node).flatMap f = if s.top named then [g file node.id] else [])
    (hbelow : ∀ file node ce child named, child.kind.resolve st.2.1.symbols = some named →
      (below file node ce child).flatMap f = if s.below ce.edgeType named
      then [g file child.id] else [])
    {fileMap : List (Text × NodeId)} (hfileMap : fileMap ~ st.2.2.toList)
    : (st.1.visitTwoLevels top below fileMap).flatMap f
        ~ (seenNodes parse prepare files s).map fun z => g z.1 z.2.id := by
  apply h.perm_flatMap_visit_named f (fun file content => g file content.id) _ _ hfileMap
  . intro file fid node content hnode
    obtain ⟨named, hresolve, rfl⟩ := Option.map_eq_some_iff.mp hnode
    exact htop file fid node named hresolve
  . intro file node ce child content hchild
    obtain ⟨named, hresolve, rfl⟩ := Option.map_eq_some_iff.mp hchild
    exact hbelow file node ce child named hresolve

theorem perm_map_visit (h : Loaded parse prepare files st) {β γ : Type}
    {top : Text → NodeId → GraphNode → List β}
    {below : Text → GraphNode → Edge → GraphNode → List β} (f : β → γ) (g : Text → NodeId → γ)
    (htop : ∀ file fid node named, node.kind.resolve st.2.1.symbols = some named →
      (top file fid node).map f = if s.top named then [g file node.id] else [])
    (hbelow : ∀ file node ce child named, child.kind.resolve st.2.1.symbols = some named →
      (below file node ce child).map f = if s.below ce.edgeType named
      then [g file child.id] else [])
    {fileMap : List (Text × NodeId)} (hfileMap : fileMap ~ st.2.2.toList)
    : (st.1.visitTwoLevels top below fileMap).map f
        ~ (seenNodes parse prepare files s).map fun z => g z.1 z.2.id := by
  simp only [List.map_eq_flatMap (f := f)] at htop hbelow ⊢
  exact h.perm_flatMap_visit _ g htop hbelow hfileMap

end Loaded

/-! ## Kinds that are not seen in classes -/

theorem seenNodes_subperm
    (hclass : ∀ kind : NodeKind Text, kind.isClass = true → s.top kind = false)
    (hmember : ∀ edge (kind : NodeKind Text), kind.IsClassMember → s.below edge kind = false)
    : seenNodes parse prepare files s <+~ nodesOfKinds parse prepare files s := by
  apply Chunks.flatMap_subperm
  intro x _
  by_cases hlast : lastUnder x.2.rel (placed parse prepare files) = some x
  . obtain ⟨outline, hout⟩ := exists_outlineOf_of_last hlast
    rw [seenNodesIn_of_last hout hlast, nodesIn_of_some hout]
    refine List.Subperm.map (Prod.mk_right_injective x.2.rel) (Chunks.flatMap_subperm ?_)
    intro y hy
    exact TopItem.seenNodes_subperm (regular_of_mem_placedItems hout hy) hclass hmember x.1 y.1
  . rw [seenNodesIn_of_not_last hlast]
    exact List.nil_subperm

theorem length_eq_iff (hclass : ∀ kind : NodeKind Text, kind.isClass = true → s.top kind = false)
    (hmember : ∀ edge (kind : NodeKind Text), kind.IsClassMember → s.below edge kind = false)
    : (seenNodes parse prepare files s).length = (nodesOfKinds parse prepare files s).length
        ↔ ShowsAll parse prepare files s := by
  rw [← perm_iff]
  constructor
  . intro hlength
    exact (seenNodes_subperm hclass hmember).perm_of_length_le hlength.ge
  . intro hperm
    exact hperm.length_eq

end ProjectState
end HdlGraph
