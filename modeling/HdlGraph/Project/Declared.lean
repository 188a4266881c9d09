import HdlGraph.Parse.Extractor.Defined
import HdlGraph.Parse.Extractor.Origin
import HdlGraph.Project.TwoLevels
import Mathlib.Data.List.Count

/-!
This module contains what a loaded project is as a whole: its nodes are what its files declare,
every edge ends in a stored node, and every node but those of the files is entered.
-/

namespace HdlGraph

open scoped List
open ExtractM

/-! ## One file -/

namespace TopItem

theorem exists_edge_of_mem_nodesAt {root b : NodeId} {item : TopItem} {node : NamedNode}
    (hnode : node ∈ item.nodesAt root b)
    : ∃ e ∈ item.edgesAt root b, e.target = node.id := by
  have hplaced : ∀ xs : List (Rose.Placement Declared), node ∈ nodesOf xs →
      ∃ e ∈ edgesOf xs, e.target = node.id := by
    intro xs hnode
    have hid := List.mem_map_of_mem (f := NamedNode.id) hnode
    rw [map_id_nodesOf, ← map_target_edgesOf] at hid
    exact List.mem_map.mp hid
  cases item with
  | declared o => exact hplaced _ hnode
  | «class» o =>
    obtain ⟨e, he, htarget⟩ := hplaced _ hnode
    exact ⟨e, List.mem_append_left _ he, htarget⟩
  | module name pos items =>
    rw [nodesAt, List.mem_append] at hnode
    rw [edgesAt]
    cases hnode with
    | inl hnode =>
      obtain ⟨e, he, htarget⟩ := hplaced _ hnode
      exact ⟨e, List.mem_append_left _ he, htarget⟩
    | inr hnode =>
      by_cases hname : name = []
      . rw [if_pos hname] at hnode
        contradiction
      . rw [if_neg hname, List.mem_singleton] at hnode
        rw [if_neg hname, hnode]
        exact ⟨_, List.mem_append_right _ List.mem_cons_self, rfl⟩

theorem kind_of_mem_kinds {item : TopItem} {kind : NodeKind Text} (h : kind ∈ item.kinds)
    : ∃ d ∈ item.outline.labels, d.kind = kind := by
  rw [kinds, List.mem_append, List.mem_map] at h
  simp only [Rose.labels_eq, List.mem_cons]
  rcases h with h | ⟨d, hd, rfl⟩
  . split at h
    . contradiction
    . exact ⟨_, .inl rfl, (List.mem_singleton.mp h).symm⟩
  . exact ⟨d, .inr hd, rfl⟩

theorem count_target_edgesAt_le (root b : NodeId) (item : TopItem) (id : NodeId)
    : ((item.edgesAt root b).map Edge.target).count id
        ≤ 2 * ((item.nodesAt root b).map NamedNode.id).count id := by
  have honce : ∀ n : Nat, n ≤ 2 * n := fun n => Nat.le_mul_of_pos_left n Nat.zero_lt_two
  cases item with
  | declared o =>
    rw [edgesAt, nodesAt, map_target_edgesOf, map_id_nodesOf]
    exact honce _
  | «class» o =>
    rw [edgesAt, nodesAt, List.map_append, List.map_singleton, map_target_edgesOf, map_id_nodesOf,
      List.count_append, Nat.two_mul]
    apply Nat.add_le_add_left
    apply List.Sublist.count_le
    rw [List.singleton_sublist, Rose.map_id_place, List.mem_range'_1]
    exact ⟨Nat.le_refl _, Nat.lt_add_of_pos_right o.size_pos⟩
  | module name pos items =>
    rw [edgesAt, nodesAt, List.map_append, List.map_append, map_target_edgesOf, map_id_nodesOf]
    split <;> exact honce _

end TopItem

namespace FileOutline

theorem count_target_edgesAt_le (b : NodeId) (file : FileOutline) (id : NodeId)
    : ((file.edgesAt b).map Edge.target).count id
        ≤ 2 * ((file.nodesAt b).map NamedNode.id).count id := by
  rw [edgesAt_eq, nodesAt_eq, List.map_cons, List.map_flatMap, List.map_flatMap]
  refine (Chunks.count_flatMap_le fun y _ => TopItem.count_target_edgesAt_le b y.1 y.2 id).trans ?_
  exact Nat.mul_le_mul_left 2 (List.Sublist.count_le id (List.sublist_cons_self _ _))

def kinds (file : FileOutline) : List (NodeKind Text) :=
  .sourceFile :: file.items.flatMap TopItem.kinds

theorem map_kind_nodesAt (b : NodeId) (file : FileOutline)
    : (file.nodesAt b).map NamedNode.kind ~ file.kinds := by
  rw [nodesAt_eq, List.map_cons, kinds]
  refine List.Perm.cons _ ?_
  have hitems := congrArg (List.flatMap TopItem.kinds) (file.map_snd_placedItems b)
  rw [List.flatMap_map] at hitems
  rw [← hitems, List.map_flatMap]
  exact List.Perm.flatMap_left _ fun y _ => y.2.map_kind_nodesAt b y.1

theorem exists_edge_of_mem_nodesAt {b : NodeId} {file : FileOutline} {node : NamedNode}
    (hnode : node ∈ file.nodesAt b) (hroot : node.kind ≠ .sourceFile)
    : ∃ e ∈ file.edgesAt b, e.target = node.id := by
  rw [nodesAt_eq, List.mem_cons] at hnode
  cases hnode with
  | inl heq => exact absurd (heq ▸ rfl) hroot
  | inr hnode =>
    obtain ⟨y, hy, hmem⟩ := List.mem_flatMap.mp hnode
    obtain ⟨e, he, htarget⟩ := TopItem.exists_edge_of_mem_nodesAt hmem
    rw [edgesAt_eq]
    exact ⟨e, List.mem_flatMap.mpr ⟨y, hy, he⟩, htarget⟩

end FileOutline

namespace GraphExtractor

theorem exists_gives_of_mem_items {tree : Cst} {item : TopItem}
    (hitem : item ∈ (fileOutline tree).items) {kind : NodeKind Text} (h : kind ∈ item.kinds)
    : ∃ syntaxKind : SyntaxKind, syntaxKind.gives kind = true := by
  obtain ⟨d, hd, rfl⟩ := TopItem.kind_of_mem_kinds h
  obtain ⟨source, _, hsource⟩ := (draws_fileOutline tree).exists_declares d
    (Rose.labels_subset_labelsAll (List.mem_map_of_mem hitem) hd)
  exact ⟨_, hsource.2⟩

theorem exists_gives_of_mem_kinds {tree : Cst} {kind : NodeKind Text}
    (h : kind ∈ (fileOutline tree).kinds)
    : kind = .sourceFile ∨ ∃ syntaxKind : SyntaxKind, syntaxKind.gives kind = true := by
  rw [FileOutline.kinds, List.mem_cons, List.mem_flatMap] at h
  refine h.imp_right ?_
  rintro ⟨item, hitem, hkind⟩
  exact exists_gives_of_mem_items hitem hkind

theorem kind_eq_sourceFile_iff {tree : Cst} {b : NodeId} {node : NamedNode}
    (hnode : node ∈ (fileOutline tree).nodesAt b)
    : node.kind = .sourceFile ↔ node.id = b := by
  rw [FileOutline.nodesAt_eq, List.mem_cons] at hnode
  rcases hnode with rfl | hnode
  . exact ⟨fun _ => rfl, fun _ => rfl⟩
  . obtain ⟨y, hy, hmem⟩ := List.mem_flatMap.mp hnode
    have hlt := FileOutline.lt_of_mem_placedItems hy
    have hitem : y.2 ∈ (fileOutline tree).items :=
      (fileOutline tree).map_snd_placedItems b ▸ List.mem_map_of_mem hy
    have hid := (y.2.ids_nodesAt b y.1).subset (List.mem_map_of_mem hmem)
    rw [List.mem_range'_1] at hid
    constructor
    . intro hkind
      have hmem := (y.2.map_kind_nodesAt b y.1).mem_iff.mp (List.mem_map_of_mem hmem)
      obtain ⟨syntaxKind, hgives⟩ := exists_gives_of_mem_items hitem hmem
      simp [hkind, SyntaxKind.gives] at hgives
    . intro heq
      exact absurd heq (Nat.ne_of_gt (Nat.lt_of_lt_of_le hlt hid.1))

end GraphExtractor

theorem NodeKind.hangsBy_of_resolve {symbols : SymbolTable} {kind : NodeKind InternedString}
    {named : NodeKind Text} (h : kind.resolve symbols = some named) {edge : EdgeType}
    (hhangs : named.HangsBy edge)
    : kind.HangsBy edge := by
  cases NodeKind.says_of_resolve h <;> exact hhangs

/-! ## All files -/

namespace ProjectState

variable (parse : Text → Option Cst → Cst) (prepare : Text → Text → Text) (files : List FileRead)

def declaredKinds : List (NodeKind Text) :=
  files.flatMap fun file => (outlineOf parse prepare file).elim [] FileOutline.kinds

variable {parse prepare files}

theorem exists_gives_of_mem_declaredKinds {kind : NodeKind Text}
    (h : kind ∈ declaredKinds parse prepare files)
    : kind = .sourceFile ∨ ∃ syntaxKind : SyntaxKind, syntaxKind.gives kind = true := by
  obtain ⟨file, _, hkind⟩ := List.mem_flatMap.mp h
  cases hout : outlineOf parse prepare file with
  | none => simp [hout] at hkind
  | some outline =>
    obtain ⟨content, _, rfl⟩ := Option.map_eq_some_iff.mp hout
    rw [hout] at hkind
    exact GraphExtractor.exists_gives_of_mem_kinds hkind

namespace Loaded

variable {st : InMemoryGraph × GraphExtractor × Dict Text NodeId}
  (h : Loaded parse prepare files st)

include h

theorem perm_kinds
    : st.1.allNodes.map (fun node => node.kind.resolve st.2.1.symbols)
        ~ (declaredKinds parse prepare files).map some := by
  have hnodes := h.nodes.map (Option.map NamedNode.kind)
  rw [List.map_map] at hnodes
  have hkinds : st.1.allNodes.map (fun node => node.kind.resolve st.2.1.symbols)
      = st.1.allNodes.map (Option.map NamedNode.kind ∘ fun node => node.named st.2.1.symbols) := by
    apply List.map_congr_left
    intro node hnode
    obtain ⟨content, _, hcontent, _, _⟩ := h.exists_named hnode
    rw [GraphNode.resolve_of_named hcontent, Function.comp_apply, hcontent, Option.map_some]
  rw [hkinds]
  refine hnodes.trans ?_
  have hsnd : (Blocks.place (blockSize parse prepare) GraphExtractor.new.nextId files).map Prod.snd
      = files :=
    Blocks.map_snd_place _ _
  have hfiles :=
    congrArg (List.flatMap fun file => (outlineOf parse prepare file).elim [] FileOutline.kinds)
      hsnd
  rw [List.flatMap_map] at hfiles
  rw [declaredKinds, ← hfiles, List.map_flatMap, List.map_flatMap]
  refine List.Perm.flatMap_left _ fun x _ => ?_
  cases hout : outlineOf parse prepare x.2 with
  | none => simp [subgraphAt, hout]
  | some outline =>
    rw [subgraphAt_of_some hout, List.map_map, Option.elim_some]
    have hoption : (Option.map NamedNode.kind ∘ some) = some ∘ NamedNode.kind := rfl
    rw [hoption, ← List.map_map]
    exact (outline.map_kind_nodesAt x.1).map some

theorem exists_resolve {node : GraphNode} (hnode : node ∈ st.1.allNodes)
    : ∃ kind ∈ declaredKinds parse prepare files, node.kind.resolve st.2.1.symbols = some kind := by
  have hmem := h.perm_kinds.mem_iff.mp (List.mem_map_of_mem hnode)
  obtain ⟨kind, hkind, hresolve⟩ := List.mem_map.mp hmem
  exact ⟨kind, hkind, hresolve.symm⟩

theorem perm_filterMap_kinds {γ : Type} {f : NodeKind InternedString → Option γ}
    {f' : NodeKind Text → Option γ}
    (hf : ∀ kind named, kind.resolve st.2.1.symbols = some named → f kind = f' named)
    : st.1.allNodes.filterMap (f ·.kind) ~ (declaredKinds parse prepare files).filterMap f' := by
  have hperm := h.perm_kinds.filterMap (·.bind f')
  rw [List.filterMap_map, List.filterMap_map] at hperm
  refine .trans (.of_eq ?_) hperm
  apply List.filterMap_congr
  intro node hnode
  obtain ⟨kind, _, hresolve⟩ := h.exists_resolve hnode
  rw [Function.comp_apply, hresolve, Option.bind_some, hf _ _ hresolve]

theorem mem_edges {e : Edge} (he : e ∈ st.1.allEdges)
    : ∃ x ∈ placed parse prepare files, ∃ outline, outlineOf parse prepare x.2 = some outline
        ∧ e ∈ outline.edgesAt x.1 := by
  obtain ⟨x, hx, hmem⟩ := List.mem_flatMap.mp (h.edges.mem_iff.mp he)
  cases hout : outlineOf parse prepare x.2 with
  | none => simp [subgraphAt, hout] at hmem
  | some outline =>
    rw [subgraphAt_of_some hout] at hmem
    exact ⟨x, hx, outline, hout, hmem⟩

theorem target_stored {e : Edge} (he : e ∈ st.1.allEdges)
    : ∃ node, st.1.getNode e.target = some node := by
  obtain ⟨x, hx, outline, hout, hmem⟩ := h.mem_edges he
  obtain ⟨content, hcontent, hid⟩ := List.mem_map.mp (FileOutline.target_mem_nodesAt hmem)
  obtain ⟨node, hnode, _⟩ := h.exists_getNode hx
    (show some content ∈ (subgraphAt parse prepare x).1
      by rw [subgraphAt_of_some hout]; exact List.mem_map_of_mem hcontent)
  exact ⟨node, hid ▸ hnode⟩

theorem hangsBy_of_mem_allEdges {e : Edge} (he : e ∈ st.1.allEdges)
    : ∃ node, st.1.getNode e.target = some node ∧ node.kind.HangsBy e.edgeType := by
  obtain ⟨log, hlog⟩ := h.reachable.logs
  obtain ⟨node, hnode⟩ := h.target_stored he
  have ⟨hmem, hid⟩ := h.reachable.keyed.getNode_eq_some_iff.mp hnode
  obtain ⟨content, _, hcontent, _, _⟩ := h.exists_named hmem
  have hincoming : e ∈ st.1.getIncoming node.id :=
    hlog.mem_getIncoming.mpr ⟨hlog.perm_allEdges.mem_iff.mp he, hid.symm⟩
  have hhangs := h.hangsBy_of_mem_getIncoming hmem hcontent hincoming
  exact ⟨node, hnode, NodeKind.hangsBy_of_resolve (GraphNode.resolve_of_named hcontent) hhangs⟩

theorem not_callSite {node : GraphNode} (hnode : node ∈ st.1.allNodes) (target : InternedString)
    : node.kind ≠ .callSite target := by
  intro hkind
  obtain ⟨kind, hmem, hresolve⟩ := h.exists_resolve hnode
  have hgives := exists_gives_of_mem_declaredKinds hmem
  rw [hkind] at hresolve
  cases NodeKind.says_of_resolve hresolve with
  | callSite htarget => simp [SyntaxKind.gives] at hgives

theorem exists_incoming {node : GraphNode} (hnode : node ∈ st.1.allNodes)
    (hkind : node.kind ≠ .sourceFile)
    : ∃ e, e ∈ st.1.getIncoming node.id := by
  obtain ⟨log, hlog⟩ := h.reachable.logs
  obtain ⟨content, x, hcontent, hx, hmem⟩ := h.exists_named hnode
  have hroot : content.kind ≠ .sourceFile := by
    intro heq
    have hresolve := GraphNode.resolve_of_named hcontent
    rw [heq] at hresolve
    exact hkind (NodeKind.eq_sourceFile_of_resolve hresolve)
  cases hout : outlineOf parse prepare x.2 with
  | none => simp [subgraphAt, hout] at hmem
  | some outline =>
    have hedges := subgraphAt_of_some (x := x) hout
    rw [hedges] at hmem
    obtain ⟨node', hnode', heq⟩ := List.mem_map.mp hmem
    obtain rfl := Option.some.inj heq
    obtain ⟨e, he, htarget⟩ := FileOutline.exists_edge_of_mem_nodesAt hnode' hroot
    have hall : e ∈ st.1.allEdges := by
      rw [h.edges.mem_iff]
      exact List.mem_flatMap.mpr ⟨x, hx, by rw [hedges]; exact he⟩
    refine ⟨e, hlog.mem_getIncoming.mpr ⟨hlog.perm_allEdges.mem_iff.mp hall, ?_⟩⟩
    rw [htarget, GraphNode.id_of_named hcontent]

theorem length_getIncoming_le {id : NodeId} : (st.1.getIncoming id).length ≤ 2 := by
  obtain ⟨log, hlog⟩ := h.reachable.logs
  have hcount : (st.1.getIncoming id).length = (log.map Edge.target).count id := by
    rw [hlog.getIncoming_eq, List.count, List.countP_map, ← List.countP_eq_length_filter]
    rfl
  have hedges := (hlog.perm_allEdges.symm.trans h.edges).map Edge.target
  have hids : (st.1.allNodes.map GraphNode.id).map some
      ~ (placed parse prepare files).flatMap fun x =>
        (subgraphAt parse prepare x).1.map (Option.map NamedNode.id) := by
    have hnodes := h.nodes.map (Option.map NamedNode.id)
    rw [List.map_map, List.map_flatMap] at hnodes
    refine .trans (.of_eq ?_) hnodes
    rw [List.map_map]
    apply List.map_congr_left
    intro node hnode
    obtain ⟨content, _, hcontent, _, _⟩ := h.exists_named hnode
    rw [Function.comp_apply, Function.comp_apply, hcontent, Option.map_some,
      GraphNode.id_of_named hcontent]
  have hone : ((st.1.allNodes.map GraphNode.id).map some).count (some id) ≤ 1 :=
    List.nodup_iff_count_le_one.mp (h.reachable.keyed.ids_nodup.map (Option.some_injective _)) _
  rw [hids.count_eq] at hone
  have hsome : ∀ ids : List NodeId, (ids.map some).count (some id) = ids.count id :=
    fun ids => List.count_map_of_injective ids some (Option.some_injective _) id
  rw [hcount, hedges.count_eq, List.map_flatMap, ← hsome, List.map_flatMap]
  refine (Chunks.count_flatMap_le (k := 2) ?_).trans (Nat.mul_le_mul_left 2 hone)
  intro x _
  cases hout : outlineOf parse prepare x.2 with
  | none => simp [subgraphAt, hout]
  | some outline =>
    have hnodes : ((outline.nodesAt x.1).map some).map (Option.map NamedNode.id)
        = ((outline.nodesAt x.1).map NamedNode.id).map some := by
      rw [List.map_map, List.map_map]
      rfl
    rw [subgraphAt_of_some hout, hnodes, hsome, hsome]
    exact outline.count_target_edgesAt_le x.1 id

end Loaded
end ProjectState
end HdlGraph
