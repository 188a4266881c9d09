import HdlGraph.Project.Declared
import HdlGraph.Project.WatchedIndex
import Mathlib.Data.Fintype.EquivFin
import Mathlib.Data.Finset.Dedup

/-!
This module contains what holds an index together while files change: no edge dangles, nothing but
the nodes of the files is left without a parent, and files share no nodes. Neither the parser nor
the file hash matters for this.
-/

namespace HdlGraph

open scoped List

theorem Placed.root_mem_nodes (outline : Text → FileOutline) (p : Placed)
    : (outline p.content).rootNode p.base ∈ p.nodes outline := by
  rw [nodes, FileOutline.nodesAt_eq]
  exact List.mem_cons_self

namespace IndexedProject

variable {H : Type}

structure Intact (state : IndexedProject H) : Prop where
  named : ∀ node ∈ state.graph.allNodes, (node.named state.extractor.symbols).isSome
  -- Ids below the counter are the ones that were given out
  below : ∀ node ∈ state.graph.allNodes, node.id < state.extractor.nextId
  targets : ∀ e ∈ state.graph.allEdges, e.source < e.target
    ∧ ∃ node, state.graph.getNode e.target = some node ∧ node.kind.HangsBy e.edgeType
  files : ∀ id, (∃ rel, state.fileMap.get? rel = some id)
    ↔ ∃ node, state.graph.getNode id = some node ∧ node.kind = .sourceFile
  entered : ∀ node ∈ state.graph.allNodes, state.graph.getIncoming node.id = []
    ↔ node.kind = .sourceFile
  mapped : ∀ rel id, state.fileMap.get? rel = some id → id ∈ state.fileNodeIds.getD rel []
  owned : ∀ node ∈ state.graph.allNodes, ∃! rel, node.id ∈ state.fileNodeIds.getD rel []
  within : ∀ e ∈ state.graph.allEdges, ∀ rel, e.target ∈ state.fileNodeIds.getD rel [] →
    ∀ node ∈ state.graph.allNodes, node.id = e.source → node.id ∈ state.fileNodeIds.getD rel []

namespace Describes

variable {outline : Text → FileOutline} {computeFileHash : Text → H}
  {state : IndexedProject H} {l : Layout}
variable (h : Describes outline computeFileHash state l)

include h

theorem exists_named {node : GraphNode} (hnode : node ∈ state.graph.allNodes)
    : ∃ rel p content, l.get? rel = some p ∧ content ∈ p.nodes outline
        ∧ node.named state.extractor.symbols = some content := by
  have hmem := h.nodes.mem_iff.mp (List.mem_map_of_mem hnode)
  obtain ⟨content, hcontent, hnamed⟩ := List.mem_map.mp hmem
  obtain ⟨⟨rel, p⟩, hentry, hcontent⟩ := List.mem_flatMap.mp hcontent
  exact ⟨rel, p, content, Dict.mem_toList_iff.mp hentry, hcontent, hnamed.symm⟩

theorem exists_getNode {rel : Text} {p : Placed} (hp : l.get? rel = some p) {content : NamedNode}
    (hcontent : content ∈ p.nodes outline)
    : ∃ node, state.graph.getNode content.id = some node
        ∧ node.named state.extractor.symbols = some content := by
  have hmem : content ∈ Layout.nodes outline l.toList :=
    List.mem_flatMap.mpr ⟨(rel, p), Dict.mem_toList_iff.mpr hp, hcontent⟩
  obtain ⟨node, hnode, hnamed⟩ := List.mem_map.mp (h.nodes.mem_iff.mpr (List.mem_map_of_mem hmem))
  exact ⟨node, h.reachable.keyed.getNode_eq_some_iff.mpr ⟨hnode, GraphNode.id_of_named hnamed⟩,
    hnamed⟩

theorem exists_edge {e : Edge} (he : e ∈ state.graph.allEdges)
    : ∃ rel p, l.get? rel = some p ∧ e ∈ p.edges outline := by
  obtain ⟨⟨rel, p⟩, hentry, he⟩ := List.mem_flatMap.mp (h.edges.mem_iff.mp he)
  exact ⟨rel, p, Dict.mem_toList_iff.mp hentry, he⟩

theorem rel_eq_of_mem_fileNodeIds {rel rel' : Text} {p : Placed} {id : NodeId}
    (hp : l.get? rel = some p) (howns : p.Owns outline id)
    (hmem : id ∈ state.fileNodeIds.getD rel' [])
    : rel' = rel := by
  obtain ⟨p', hp', hid⟩ := h.mem_oldNodeIds.mp hmem
  exact h.apart.rel_eq hp' hp (p'.owns_of_mem_nodeIds outline hid) howns

theorem congr {outline' : Text → FileOutline} {computeFileHash' : Text → H}
    (hsame : ∀ rel p, l.get? rel = some p →
      outline' p.content = outline p.content
        ∧ computeFileHash' p.content = computeFileHash p.content)
    : Describes outline' computeFileHash' state l := by
  have hentry : ∀ entry ∈ l.toList, outline' entry.2.content = outline entry.2.content :=
    fun entry hentry => (hsame entry.1 entry.2 (Dict.mem_toList_iff.mp hentry)).1
  have hnodes : Layout.nodes outline' l.toList = Layout.nodes outline l.toList := by
    apply List.flatMap_congr
    intro entry hmem
    rw [Placed.nodes, hentry entry hmem, Placed.nodes]
  have hedges : Layout.edges outline' l.toList = Layout.edges outline l.toList := by
    apply List.flatMap_congr
    intro entry hmem
    rw [Placed.edges, hentry entry hmem, Placed.edges]
  have hsize : ∀ rel p, l.get? rel = some p → p.size outline' = p.size outline := by
    intro rel p hp
    rw [Placed.size, (hsame rel p hp).1, Placed.size]
  exact {
    reachable := h.reachable
    nodes := hnodes ▸ h.nodes
    edges := hedges ▸ h.edges
    fileMap := h.fileMap
    fileNodeIds := by
      intro rel
      rw [h.fileNodeIds]
      cases hp : l.get? rel with
      | none => rfl
      | some p =>
        rw [Option.map_some, Option.map_some, Placed.nodeIds, Placed.nodes,
          ← (hsame rel p hp).1]; rfl
    fileEdges := by
      intro rel
      rw [h.fileEdges]
      cases hp : l.get? rel with
      | none => rfl
      | some p => rw [Option.map_some, Option.map_some, Placed.edges, ← (hsame rel p hp).1]; rfl
    fileHashes := by
      intro rel p hp
      rw [h.fileHashes rel p hp, (hsame rel p hp).2]
    apart := {
      pos := h.apart.pos
      le := fun rel p hp => hsize rel p hp ▸ h.apart.le rel p hp
      disjoint := by
        intro rel rel' p p' hp hp' hne
        rw [hsize rel p hp, hsize rel' p' hp']
        exact h.apart.disjoint rel rel' p p' hp hp' hne
    }
  }

end Describes

-- Each label of the layout stands for a tree that was indexed, whatever text and hash it came with
structure Drawn (outline : Text → FileOutline) (hashOf : Text → H) (state : IndexedProject H)
    (l : Layout) : Prop where
  describes : Describes outline hashOf state l
  trees : ∀ label, ∃ tree, outline label = GraphExtractor.fileOutline tree

namespace Drawn

variable {outline : Text → FileOutline} {hashOf : Text → H} {state : IndexedProject H} {l : Layout}

theorem regular (h : Drawn outline hashOf state l) (label : Text)
    : ∀ item ∈ (outline label).items, item.Regular := by
  obtain ⟨tree, htree⟩ := h.trees label
  exact htree ▸ GraphExtractor.regular_fileOutline tree

theorem kind_eq_sourceFile_iff (h : Drawn outline hashOf state l) {p : Placed} {content : NamedNode}
    (hcontent : content ∈ p.nodes outline)
    : content.kind = .sourceFile ↔ content.id = p.base := by
  obtain ⟨tree, htree⟩ := h.trees p.content
  rw [Placed.nodes, htree] at hcontent
  exact GraphExtractor.kind_eq_sourceFile_iff hcontent

theorem insert (h : Drawn outline hashOf state l) (rel : Text) (tree : Cst) (newHash : H)
    (fileId : Nat) {state' : IndexedProject H}
    (hgraph : state'.graph
      = (state.extractor.extractChangeset tree fileId (state.fileNodeIds.getD rel [])
      (state.fileEdges.getD rel [])).1.applyTo state.graph)
    (hextractor : state'.extractor = (state.extractor.extract tree fileId).2)
    (hmap : ∀ k, state'.fileMap.get? k = if k = rel then some state.extractor.nextId
      else state.fileMap.get? k)
    (hids : ∀ k, state'.fileNodeIds.get? k
      = if k = rel then some ((state.extractor.extract tree fileId).1.1.map GraphNode.id)
        else state.fileNodeIds.get? k)
    (hedges : ∀ k, state'.fileEdges.get? k
      = if k = rel then some (state.extractor.extract tree fileId).1.2 else state.fileEdges.get? k)
    (hhashes : ∀ k, state'.fileHashes.get? k = if k = state.extractor.nextId then some newHash
      else state.fileHashes.get? k)
    : ∃ outline' hashOf' l', Drawn outline' hashOf' state' l' := by
  obtain ⟨label, hfresh⟩ :=
    Infinite.exists_notMem_finset ((l.toList.map fun entry => entry.2.content).toFinset)
  rw [List.mem_toFinset] at hfresh
  have hne : ∀ rel p, l.get? rel = some p → p.content ≠ label := by
    intro rel p hp heq
    exact hfresh
      (heq ▸ List.mem_map_of_mem (f := fun entry => entry.2.content) (Dict.mem_toList_iff.mpr hp))
  have hsame : Describes (Function.update outline label (GraphExtractor.fileOutline tree))
      (Function.update hashOf label newHash) state l := by
    apply h.describes.congr
    intro rel p hp
    rw [Function.update_of_ne (hne rel p hp), Function.update_of_ne (hne rel p hp)]
    exact ⟨rfl, rfl⟩
  have htree : GraphExtractor.fileOutline tree
      = Function.update outline label (GraphExtractor.fileOutline tree) label := by
    rw [Function.update_self]
  refine ⟨_, _, _, hsame.insert tree htree fileId hgraph hextractor hmap hids hedges ?_, ?_⟩
  . intro k
    rw [hhashes, Function.update_self]
  . intro other
    by_cases heq : other = label
    . subst heq
      exact ⟨tree, Function.update_self ..⟩
    . rw [Function.update_of_ne heq]
      exact h.trees other

end Drawn

def Laid (state : IndexedProject H) : Prop := ∃ outline hashOf l, Drawn outline hashOf state l

namespace Laid

variable {state : IndexedProject H}

theorem new (h : H) : Laid (new H) :=
  ⟨fun _ => GraphExtractor.fileOutline (.node .other [] [] ⟨0, 0⟩ []), fun _ => h, .empty, .new,
    fun _ => ⟨_, rfl⟩⟩

theorem indexFile (h : Laid state) (parse : Text → Option Cst → Cst) (computeFileHash : Text → H)
    {file : FileRead} (hnew : state.fileNodeIds.get? file.rel = none)
    : Laid (indexFile parse computeFileHash state file) := by
  obtain ⟨outline, hashOf, l, hdrawn⟩ := h
  unfold IndexedProject.indexFile
  cases file.content with
  | none => exact ⟨outline, hashOf, l, hdrawn⟩
  | some content =>
    have hnone : l.get? file.rel = none := by
      rw [hdrawn.describes.fileNodeIds, Option.map_eq_none_iff] at hnew
      exact hnew
    have hids : state.fileNodeIds.getD file.rel [] = [] := by
      rw [Dict.getD, hnew]
      rfl
    have hedges : state.fileEdges.getD file.rel [] = [] := by
      rw [Dict.getD, hdrawn.describes.fileEdges, hnone]
      rfl
    have hhead := state.extractor.head?_extract (parse content none) 0
    refine hdrawn.insert file.rel (parse content none) (computeFileHash content) 0 ?_
      rfl ?_ ?_ ?_ ?_
    . rw [hids, hedges, GraphExtractor.applyTo_extractChangeset_nil]
    . intro k
      simp only [hhead, Option.getD_some, Dict.get?_insert]
    . intro k
      simp only [Dict.get?_insert]
    . intro k
      simp only [Dict.get?_insert]
    . intro k
      simp only [hhead, Option.getD_some, Dict.get?_insert]

theorem updateFile [DecidableEq H] (h : Laid state) (parse : Text → Option Cst → Cst)
    (computeFileHash : Text → H) (file : FileRead)
    : Laid (updateFile parse computeFileHash state file) := by
  unfold IndexedProject.updateFile
  cases file.content with
  | none => exact h
  | some content =>
    dsimp only
    split
    . exact h
    . obtain ⟨outline, hashOf, l, hdrawn⟩ := h
      have hpos := state.extractor.nextId_pos
      generalize state.fileMap.getD file.rel 0 = fileId
      generalize parse content (state.fileTrees.get? file.rel) = tree
      have hids :=
        state.extractor.map_fst_addedNodes tree fileId (state.fileNodeIds.getD file.rel [])
        (state.fileEdges.getD file.rel [])
      have hhead :=
        state.extractor.head?_addedNodes tree fileId (state.fileNodeIds.getD file.rel [])
        (state.fileEdges.getD file.rel [])
      refine hdrawn.insert file.rel tree (computeFileHash content) fileId rfl rfl ?_ ?_ ?_ ?_
      . intro k
        simp only [hhead, Option.getD_some, Nat.pos_iff_ne_zero.mp hpos, ne_eq, not_false_eq_true,
          if_true, Dict.get?_insert]
      . intro k
        simp only [hids, Dict.get?_insert, Dict.get?_remove]
        grind
      . intro k
        simp only [GraphExtractor.extractChangeset_addedEdges, Dict.get?_insert, Dict.get?_remove]
        grind
      . intro k
        simp only [hhead, Option.getD_some, Nat.pos_iff_ne_zero.mp hpos, ne_eq, not_false_eq_true,
          if_true, Dict.get?_insert]

theorem indexProject (parse : Text → Option Cst → Cst) (computeFileHash : Text → H)
    {files : List FileRead} (hrels : (files.map FileRead.rel).Nodup)
    : Laid (indexProject parse computeFileHash files) := by
  have hrun : Laid (IndexedProject.indexProject parse computeFileHash files)
      ∧ ∀ rel, rel ∉ files.map FileRead.rel →
      (IndexedProject.indexProject parse computeFileHash files).fileNodeIds.get? rel = none := by
    induction files using List.reverseRecOn with
    | nil =>
      exact ⟨new (computeFileHash []), by simp [IndexedProject.indexProject, IndexedProject.new]⟩
    | append_singleton files file ih =>
      rw [List.map_append, List.map_singleton, List.nodup_append] at hrels
      obtain ⟨hlaid, hunread⟩ := ih hrels.1
      have hnew : file.rel ∉ files.map FileRead.rel := by
        intro hmem
        exact hrels.2.2 _ hmem _ (List.mem_singleton.mpr rfl) rfl
      rw [IndexedProject.indexProject, List.foldl_append, List.foldl_cons, List.foldl_nil]
      refine ⟨hlaid.indexFile parse computeFileHash (hunread _ hnew), ?_⟩
      intro rel hrel
      rw [List.map_append, List.map_singleton, List.mem_append, List.mem_singleton, not_or] at hrel
      unfold IndexedProject.indexFile
      cases file.content with
      | none => exact hunread rel hrel.1
      | some content =>
        simp only [Dict.get?_insert_of_ne _ _ hrel.2]
        exact hunread rel hrel.1
  exact hrun.1

end Laid

theorem Drawn.intact {outline : Text → FileOutline} {hashOf : Text → H} {state : IndexedProject H}
    {l : Layout} (h : Drawn outline hashOf state l)
    : Intact state where
  named := by
    intro node hnode
    obtain ⟨_, _, content, _, _, hnamed⟩ := h.describes.exists_named hnode
    rw [hnamed]
    rfl
  below := by
    intro node hnode
    obtain ⟨rel, p, content, hp, hcontent, hnamed⟩ := h.describes.exists_named hnode
    rw [GraphNode.id_of_named hnamed]
    exact h.describes.apart.lt_of_owns hp
      (p.owns_of_mem_nodeIds outline (List.mem_map_of_mem hcontent))
  targets := by
    intro e he
    obtain ⟨rel, p, hp, he⟩ := h.describes.exists_edge he
    refine ⟨(FileOutline.mem_edgesAt he).2.1, ?_⟩
    obtain ⟨content, hcontent, hid⟩ := List.mem_map.mp (FileOutline.target_mem_nodesAt he)
    obtain ⟨node, hnode, hnamed⟩ := h.describes.exists_getNode hp hcontent
    have hhangs := FileOutline.hangsBy_of_mem_edgesAt (h.regular p.content) he hcontent hid.symm
    exact ⟨node, hid ▸ hnode,
      NodeKind.hangsBy_of_resolve (GraphNode.resolve_of_named hnamed) hhangs⟩
  files := by
    intro id
    constructor
    . rintro ⟨rel, hmap⟩
      rw [h.describes.fileMap, Option.map_eq_some_iff] at hmap
      obtain ⟨p, hp, rfl⟩ := hmap
      obtain ⟨node, hnode, hnamed⟩ := h.describes.exists_getNode hp (p.root_mem_nodes outline)
      exact ⟨node, hnode, NodeKind.eq_sourceFile_of_resolve (GraphNode.resolve_of_named hnamed)⟩
    . rintro ⟨node, hnode, hkind⟩
      have hstored := h.describes.reachable.keyed.getNode_eq_some_iff.mp hnode
      obtain ⟨rel, p, content, hp, hcontent, hnamed⟩ := h.describes.exists_named hstored.1
      have hresolve := GraphNode.resolve_of_named hnamed
      rw [hkind] at hresolve
      have hid := (h.kind_eq_sourceFile_iff hcontent).mp (Option.some.inj hresolve).symm
      refine ⟨rel, ?_⟩
      rw [h.describes.fileMap, hp, Option.map_some, ← hid,
        ← GraphNode.id_of_named hnamed, hstored.2]
  entered := by
    intro node hnode
    obtain ⟨log, hlog⟩ := h.describes.reachable.logs
    obtain ⟨rel, p, content, hp, hcontent, hnamed⟩ := h.describes.exists_named hnode
    have hresolve := GraphNode.resolve_of_named hnamed
    constructor
    . intro hnone
      by_contra hkind
      have hroot : content.kind ≠ .sourceFile := by
        intro heq
        exact hkind (NodeKind.eq_sourceFile_of_resolve (heq ▸ hresolve))
      obtain ⟨e, he, htarget⟩ := FileOutline.exists_edge_of_mem_nodesAt hcontent hroot
      have hmem : e ∈ state.graph.getIncoming node.id := by
        refine hlog.mem_getIncoming.mpr
          ⟨hlog.perm_allEdges.mem_iff.mp (h.describes.mem_allEdges_of_mem hp he), ?_⟩
        rw [htarget, GraphNode.id_of_named hnamed]
      simp [hnone] at hmem
    . intro hkind
      rw [hkind] at hresolve
      have hid := (h.kind_eq_sourceFile_iff hcontent).mp (Option.some.inj hresolve).symm
      rw [List.eq_nil_iff_forall_not_mem]
      intro e he
      obtain ⟨hmem, htarget⟩ := hlog.mem_getIncoming.mp he
      obtain ⟨rel', p', hp', he'⟩ := h.describes.exists_edge (hlog.perm_allEdges.mem_iff.mpr hmem)
      have hown := (p'.owns_of_mem_edges outline he').2
      rw [htarget, GraphNode.id_of_named hnamed] at hown
      obtain rfl :=
        h.describes.apart.rel_eq hp' hp hown
          (p.owns_of_mem_nodeIds outline (List.mem_map_of_mem hcontent))
      obtain rfl := Option.some.inj (hp'.symm.trans hp)
      have hlt := FileOutline.mem_edgesAt he'
      rw [htarget, GraphNode.id_of_named hnamed, hid] at hlt
      exact absurd hlt.2.1 (Nat.not_lt_of_le hlt.1)
  mapped := by
    intro rel id hmap
    rw [h.describes.fileMap, Option.map_eq_some_iff] at hmap
    obtain ⟨p, hp, rfl⟩ := hmap
    exact h.describes.mem_oldNodeIds.mpr ⟨p, hp, List.mem_map_of_mem (p.root_mem_nodes outline)⟩
  owned := by
    intro node hnode
    obtain ⟨rel, p, content, hp, hcontent, hnamed⟩ := h.describes.exists_named hnode
    have hid : node.id ∈ p.nodeIds outline :=
      GraphNode.id_of_named hnamed ▸ List.mem_map_of_mem hcontent
    refine ⟨rel, h.describes.mem_oldNodeIds.mpr ⟨p, hp, hid⟩, ?_⟩
    intro rel' hmem
    exact h.describes.rel_eq_of_mem_fileNodeIds hp (p.owns_of_mem_nodeIds outline hid) hmem
  within := by
    intro e he rel hmem node hnode hsource
    obtain ⟨rel', p, hp, he⟩ := h.describes.exists_edge he
    have howns := p.owns_of_mem_edges outline he
    obtain rfl := h.describes.rel_eq_of_mem_fileNodeIds hp howns.2 hmem
    obtain ⟨rel', p', content, hp', hcontent, hnamed⟩ := h.describes.exists_named hnode
    have hid : node.id ∈ p'.nodeIds outline :=
      GraphNode.id_of_named hnamed ▸ List.mem_map_of_mem hcontent
    obtain rfl :=
      h.describes.apart.rel_eq hp' hp (p'.owns_of_mem_nodeIds outline hid) (hsource ▸ howns.1)
    exact h.describes.mem_oldNodeIds.mpr ⟨p', hp', hid⟩

/-! ## Runs -/

theorem laid_of_watched [DecidableEq H] {parse : Text → Option Cst → Cst}
    {computeFileHash : Text → H} {w : Watched} {disk : Dict Location Text} {files : List FileRead}
    (hrels : (files.map FileRead.rel).Nodup) {s : WatchState H}
    (hrun : Relation.ReflTransGen (WatchStep parse computeFileHash w)
      (.start parse computeFileHash disk files) s)
    : Laid s.index := by
  induction hrun with
  | refl => exact Laid.indexProject parse computeFileHash hrels
  | tail _ hstep ih =>
    cases hstep with
    | change | receive | receiveError => exact ih
    | update path rest hready => exact ih.updateFile parse computeFileHash _

/-- In every state that the watch command gets to, the index is intact. -/
theorem intact_of_watched [DecidableEq H] {parse : Text → Option Cst → Cst}
    {computeFileHash : Text → H} {w : Watched} {disk : Dict Location Text} {files : List FileRead}
    (hrels : (files.map FileRead.rel).Nodup) {s : WatchState H}
    (hrun : Relation.ReflTransGen (WatchStep parse computeFileHash w)
      (.start parse computeFileHash disk files) s)
    : s.index.Intact := by
  obtain ⟨outline, hashOf, l, hdrawn⟩ := laid_of_watched hrels hrun
  exact hdrawn.intact

def renamedTop : WatchState Text where
  disk := topDisk.insert [topSv] "package q; endpackage".toList
  channel := []
  pending := (receive .empty (.event .modify [(⟨true, [.normal topSv]⟩, 0)] debounce)).1
  ready := []
  index := updateFile parsePackage id (indexProject parsePackage id topFiles)
    (rootWatched.read (topDisk.insert [topSv] "package q; endpackage".toList)
      ⟨true, [.normal topSv]⟩)
  reads :=
    [rootWatched.read (topDisk.insert [topSv] "package q; endpackage".toList)
      ⟨true, [.normal topSv]⟩]

theorem renamedTop_run
    : Relation.ReflTransGen (WatchStep parsePackage id rootWatched)
        (.start parsePackage id topDisk topFiles) renamedTop := by
  have hchange : WatchStep parsePackage id rootWatched
      (.start parsePackage id topDisk topFiles) _ :=
    .change _ [topSv] (some "package q; endpackage".toList)
      [.event .modify [⟨true, [.normal topSv]⟩]]
      (by simp [Notice.Under, PathBuf.Under])
      (fun _ _ => ⟨_, List.mem_singleton.mpr rfl, ⟨true, [.normal topSv]⟩,
        ⟨rfl, List.mem_singleton.mpr rfl⟩, rfl, rfl⟩)
  refine .tail
    (.tail (.single hchange) (WatchStep.receive _ .modify [(⟨true, [.normal topSv]⟩, 0)] debounce []
    [⟨true, [.normal topSv]⟩] rfl rfl (by decide))) ?_
  exact WatchStep.update _ ⟨true, [.normal topSv]⟩ [] rfl

theorem intact_of_watched_renamedTop
    : renamedTop.index.graph.allNodes.length = 2 ∧ renamedTop.index.Intact :=
  ⟨by decide, intact_of_watched (by simp [topFiles]) renamedTop_run⟩

end IndexedProject
end HdlGraph
