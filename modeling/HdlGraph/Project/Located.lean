import HdlGraph.Project.Orders

/-!
This module contains where a loaded project keeps the subgraph of a file: the node of an id in the
block of the file is a node of the file, its outgoing edges are edges of the file, and the file map
leads to the block that was loaded last under a path.
-/

namespace HdlGraph

open scoped List
open Blocks

deriving instance DecidableEq for FileRead

namespace ProjectState

variable {parse : Text → Option Cst → Cst} {prepare : Text → Text → Text} {files : List FileRead}

theorem covers_of_mem_nodes {x : Nat × FileRead} {node : NamedNode}
    (h : some node ∈ (subgraphAt parse prepare x).1)
    : Covers (blockSize parse prepare) x node.id :=
  mem_subgraphAt h

theorem covers_of_mem_edges {x : Nat × FileRead} {e : Edge} (h : e ∈ (subgraphAt parse prepare x).2)
    : Covers (blockSize parse prepare) x e.source
        ∧ Covers (blockSize parse prepare) x e.target := by
  have ⟨hle, hlt, hstop⟩ := mem_edges_subgraphAt h
  have hsource : e.source < x.1 + blockSize parse prepare x.2 := Nat.lt_trans hlt hstop
  exact ⟨⟨hle, hsource⟩, ⟨Nat.le_trans hle (Nat.le_of_lt hlt), hstop⟩⟩

theorem covers_start {x : Nat × FileRead} (h : x.2.content.isSome)
    : Covers (blockSize parse prepare) x x.1 := by
  obtain ⟨content, hcontent⟩ := Option.isSome_iff_exists.mp h
  refine ⟨Nat.le_refl _, Nat.lt_add_of_pos_right ?_⟩
  rw [blockSize, outlineOf_of_some parse prepare hcontent]
  exact FileOutline.size_pos _

theorem placed_pairwise
    : (placed parse prepare files).Pairwise (Disjoint (blockSize parse prepare)) :=
      place_pairwise _ _

namespace Loaded

variable {st : InMemoryGraph × GraphExtractor × Dict Text NodeId}

theorem perm_getOutgoing (h : Loaded parse prepare files st) {x : Nat × FileRead}
    (hx : x ∈ placed parse prepare files) {id : NodeId}
    (hid : Covers (blockSize parse prepare) x id)
    : st.1.getOutgoing id ~ (subgraphAt parse prepare x).2.filter (·.source = id) := by
  obtain ⟨log, hlog⟩ := h.reachable.logs
  rw [hlog.getOutgoing_eq]
  refine ((hlog.perm_allEdges.symm.trans h.edges).filter _).trans (.of_eq ?_)
  apply filter_flatMap_of_covers placed_pairwise _ hx hid
  intro y _ e he hsource
  exact hsource ▸ (covers_of_mem_edges he).1

theorem mem_getOutgoing_iff (h : Loaded parse prepare files st) {x : Nat × FileRead}
    (hx : x ∈ placed parse prepare files) {id : NodeId}
    (hid : Covers (blockSize parse prepare) x id) {e : Edge}
    : e ∈ st.1.getOutgoing id ↔ e ∈ (subgraphAt parse prepare x).2 ∧ e.source = id := by
  rw [(h.perm_getOutgoing hx hid).mem_iff, List.mem_filter, decide_eq_true_eq]

theorem exists_getNode (h : Loaded parse prepare files st) {x : Nat × FileRead}
    (hx : x ∈ placed parse prepare files) {content : NamedNode}
    (hcontent : some content ∈ (subgraphAt parse prepare x).1)
    : ∃ node, st.1.getNode content.id = some node ∧ node.named st.2.1.symbols = some content := by
  have hmem := h.nodes.mem_iff.mpr (List.mem_flatMap.mpr ⟨x, hx, hcontent⟩)
  obtain ⟨node, hnode, hnamed⟩ := List.mem_map.mp hmem
  exact ⟨node, h.reachable.keyed.getNode_eq_some_iff.mpr ⟨hnode, GraphNode.id_of_named hnamed⟩,
    hnamed⟩

theorem mem_fileMap_iff (h : Loaded parse prepare files st) {rel : Text} {id : NodeId}
    : (rel, id) ∈ st.2.2.toList ↔ ∃ x, lastUnder rel (placed parse prepare files) = some x
        ∧ x.1 = id := by
  rw [Dict.mem_toList_iff, h.fileMap, Option.map_eq_some_iff]

end Loaded

theorem mem_of_lastUnder {rel : Text} {xs : List (Nat × FileRead)} {x : Nat × FileRead}
    (h : lastUnder rel xs = some x)
    : x ∈ xs ∧ x.2.rel = rel ∧ x.2.content.isSome := by
  have hmem := List.mem_of_getLast? h
  rwa [List.mem_filter, decide_eq_true_eq] at hmem

theorem Loaded.perm_fileMap {st : InMemoryGraph × GraphExtractor × Dict Text NodeId}
    (h : Loaded parse prepare files st)
    : st.2.2.toList
        ~ ((placed parse prepare files).filter fun x =>
          lastUnder x.2.rel (placed parse prepare files) = some x).map
            fun x => (x.2.rel, x.1) := by
  have hnodup : ((placed parse prepare files).filter fun x =>
      lastUnder x.2.rel (placed parse prepare files) = some x).Nodup := by
    have hpairwise : (placed parse prepare files).Pairwise (Disjoint (blockSize parse prepare)) :=
      placed_pairwise
    refine (hpairwise.filter _).imp_of_mem ?_
    intro x y hx hy hdisjoint heq
    have hlast := mem_of_lastUnder (of_decide_eq_true (List.mem_filter.mp hx).2)
    have hcovers : Covers (blockSize parse prepare) x x.1 := covers_start hlast.2.2
    exact not_disjoint_of_covers hcovers (heq ▸ hcovers) hdisjoint
  have hnodup' := hnodup.map_on (f := fun x : Nat × FileRead => (x.2.rel, x.1)) (by
    intro x hx y hy heq
    rw [Prod.mk.injEq] at heq
    have hxlast := of_decide_eq_true (List.mem_filter.mp hx).2
    have hylast := of_decide_eq_true (List.mem_filter.mp hy).2
    rw [heq.1, hylast] at hxlast
    exact (Option.some.inj hxlast).symm)
  rw [List.perm_ext_iff_of_nodup (Dict.toList_nodup _) hnodup']
  rintro ⟨rel, id⟩
  rw [h.mem_fileMap_iff, List.mem_map]
  constructor
  . rintro ⟨x, hlast, rfl⟩
    have ⟨hx, hrel, _⟩ := mem_of_lastUnder hlast
    subst hrel
    exact ⟨x, List.mem_filter.mpr ⟨hx, decide_eq_true hlast⟩, rfl⟩
  . rintro ⟨x, hx, heq⟩
    rw [Prod.mk.injEq] at heq
    obtain ⟨rfl, rfl⟩ := heq
    exact ⟨x, of_decide_eq_true (List.mem_filter.mp hx).2, rfl⟩

theorem lastUnder_of_nodup (hrels : (files.map FileRead.rel).Nodup) {x : Nat × FileRead}
    (hx : x ∈ placed parse prepare files) (hcontent : x.2.content.isSome)
    : lastUnder x.2.rel (placed parse prepare files) = some x := by
  -- the one block of the path is that of the file
  have hnodup : ((placed parse prepare files).map fun y => y.2.rel).Nodup := by
    have hfiles : (placed parse prepare files).map Prod.snd = files := map_snd_place _ _
    have hsnd := congrArg (List.map FileRead.rel) hfiles
    rw [List.map_map] at hsnd
    exact hsnd ▸ hrels
  obtain ⟨before, after, hsplit⟩ := List.append_of_mem hx
  rw [hsplit, List.map_append, List.map_cons, List.nodup_append, List.nodup_cons] at hnodup
  have hafter : after.filter (fun y => y.2.rel = x.2.rel ∧ y.2.content.isSome) = [] := by
    rw [List.filter_eq_nil_iff]
    intro y hy hsame
    exact hnodup.2.1.1 (List.mem_map.mpr ⟨y, hy, (of_decide_eq_true hsame).1⟩)
  rw [lastUnder, hsplit, List.filter_append, List.filter_cons_of_pos (by simp [hcontent]), hafter]
  simp

end ProjectState
end HdlGraph
