import HdlGraph.Parse.Extractor.Schema
import HdlGraph.Project.Integrity

/-!
This module contains the schema of the graph in the states of a project: a file that is read again
leaves a graph that conforms to it, so the watch command never gets to another one.
-/

namespace HdlGraph

open scoped List
open Blocks

namespace InMemoryGraph

/-- Along every edge of the graph the schema lets the target be below the source. -/
def Conforms (g : InMemoryGraph) : Prop :=
  ∀ e ∈ g.allEdges, ∃ target, g.getNode e.target = some target
    ∧ ∀ source, g.getNode e.source = some source → source.kind.admits e.edgeType target.kind = true

variable {g : InMemoryGraph} {log : List Edge} {e : Edge} {source target : GraphNode}

theorem Conforms.admits (h : g.Conforms) (hlog : g.Logs log) (hkeyed : g.Keyed)
    (hsource : source ∈ g.allNodes) (he : e ∈ g.getOutgoing source.id)
    (htarget : g.getNode e.target = some target)
    : source.kind.admits e.edgeType target.kind = true := by
  obtain ⟨hmem, hid⟩ := hlog.mem_getOutgoing.mp he
  obtain ⟨target', htarget', hadmits⟩ := h e (hlog.perm_allEdges.mem_iff.mpr hmem)
  obtain rfl := Option.some.inj (htarget.symm.trans htarget')
  exact hadmits source (hkeyed.getNode_eq_some_iff.mpr ⟨hsource, hid.symm⟩)

end InMemoryGraph

/-! ## Indexed projects -/

namespace IndexedProject

variable {H : Type}

theorem Drawn.conforms {outline : Text → FileOutline} {hashOf : Text → H} {state : IndexedProject H}
    {l : Layout} (h : Drawn outline hashOf state l)
    : state.graph.Conforms := by
  intro e he
  obtain ⟨rel, p, hp, he⟩ := h.describes.exists_edge he
  obtain ⟨content, hcontent, hid⟩ := List.mem_map.mp (FileOutline.target_mem_nodesAt he)
  obtain ⟨target, htarget, hnamed⟩ := h.describes.exists_getNode hp hcontent
  refine ⟨target, hid ▸ htarget, ?_⟩
  intro source hsource
  obtain ⟨hmem, hsourceId⟩ := h.describes.reachable.keyed.getNode_eq_some_iff.mp hsource
  obtain ⟨rel', p', content', hp', hcontent', hnamed'⟩ := h.describes.exists_named hmem
  have hid' : content'.id = e.source := (GraphNode.id_of_named hnamed').symm.trans hsourceId
  -- The source is a node of the same file
  have howns' : p'.Owns outline content'.id :=
    p'.owns_of_mem_nodeIds outline (List.mem_map_of_mem hcontent')
  obtain rfl := h.describes.apart.rel_eq hp' hp howns' (hid' ▸ (p.owns_of_mem_edges outline he).1)
  obtain rfl := Option.some.inj (hp'.symm.trans hp)
  have hbelow : Outline.Below .sourceFile ((outline p'.content).items.map TopItem.outline) := by
    obtain ⟨tree, htree⟩ := h.trees p'.content
    exact htree ▸ GraphExtractor.below_fileOutline tree
  exact NodeKind.admits_of_resolve (GraphNode.resolve_of_named hnamed')
    (GraphNode.resolve_of_named hnamed)
    (FileOutline.admits_of_mem_edgesAt hbelow (h.regular _) he hcontent' hcontent hid' hid)

end IndexedProject

/-! ## Loaded projects -/

namespace ProjectState

theorem Loaded.conforms {parse : Text → Option Cst → Cst} {prepare : Text → Text → Text}
    {files : List FileRead} {st : InMemoryGraph × GraphExtractor × Dict Text NodeId}
    (h : Loaded parse prepare files st)
    : st.1.Conforms := by
  intro e he
  obtain ⟨x, hx, outline, hout, hmem⟩ := h.mem_edges he
  obtain ⟨content, hcontent, hid⟩ := List.mem_map.mp (FileOutline.target_mem_nodesAt hmem)
  have hsub := subgraphAt_of_some hout
  have hplaced : some content ∈ (subgraphAt parse prepare x).1 := by
    rw [hsub]
    exact List.mem_map_of_mem hcontent
  obtain ⟨target, htarget, hnamed⟩ := h.exists_getNode hx hplaced
  refine ⟨target, hid ▸ htarget, ?_⟩
  intro source hsource
  obtain ⟨hstored, hsourceId⟩ := h.reachable.keyed.getNode_eq_some_iff.mp hsource
  obtain ⟨content', x', hnamed', hx', hcontent'⟩ := h.exists_named hstored
  have hid' : content'.id = e.source := (GraphNode.id_of_named hnamed').symm.trans hsourceId
  have hcovers : Covers (blockSize parse prepare) x e.source :=
    (covers_of_mem_edges (by rw [hsub]; exact hmem)).1
  obtain rfl := eq_of_covers placed_pairwise hx' hx (covers_of_mem_nodes hcontent') (hid' ▸ hcovers)
  rw [hsub] at hcontent'
  obtain ⟨_, hcontent', ⟨rfl⟩⟩ := List.mem_map.mp hcontent'
  have hbelow : Outline.Below .sourceFile (outline.items.map TopItem.outline) := by
    obtain ⟨text, _, rfl⟩ := Option.map_eq_some_iff.mp hout
    exact GraphExtractor.below_fileOutline _
  exact NodeKind.admits_of_resolve (GraphNode.resolve_of_named hnamed')
    (GraphNode.resolve_of_named hnamed)
    (FileOutline.admits_of_mem_edgesAt hbelow (regular_of_outlineOf hout) hmem hcontent'
      hcontent hid' hid)

end ProjectState

/-! ## Runs -/

namespace IndexedProject

/-- In every state that the watch command gets to, the graph conforms to the schema. -/
theorem conforms_of_watched {H : Type} [DecidableEq H] {parse : Text → Option Cst → Cst}
    {computeFileHash : Text → H} {w : Watched} {disk : Dict Location Text} {files : List FileRead}
    (hrels : (files.map FileRead.rel).Nodup) {s : WatchState H}
    (hrun : Relation.ReflTransGen (WatchStep parse computeFileHash w)
      (.start parse computeFileHash disk files) s)
    : s.index.graph.Conforms := by
  obtain ⟨outline, hashOf, l, hdrawn⟩ := laid_of_watched hrels hrun
  exact hdrawn.conforms

theorem conforms_of_watched_renamedTop
    : renamedTop.index.graph.allEdges.length = 1 ∧ renamedTop.index.graph.Conforms :=
  ⟨by decide, conforms_of_watched (by simp [topFiles]) renamedTop_run⟩

end IndexedProject
end HdlGraph
