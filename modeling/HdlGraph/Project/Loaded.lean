import HdlGraph.Parse.Extractor.Attached
import HdlGraph.Project.Describes

/-!
This module contains what a layout says about a loaded graph: how many nodes it has, which nodes are
reachable from the node of a file, and that loading a project is indexing it.
-/

namespace HdlGraph

open scoped List

def AttachedTree (tree : Cst) : Prop :=
  ∀ child ∈ tree.children, child.kind = .moduleDeclaration →
    GraphExtractor.moduleName child ≠ [] ∨ GraphExtractor.moduleItemsOutline child = []

theorem attached_fileOutline_iff (tree : Cst) : (GraphExtractor.fileOutline tree).Attached
    ↔ AttachedTree tree := by
  have hchild : ∀ child, (∀ item ∈ GraphExtractor.topItems child, item.Attached)
      ↔ (child.kind = .moduleDeclaration →
          GraphExtractor.moduleName child ≠ [] ∨ GraphExtractor.moduleItemsOutline child = []) := by
    intro child
    unfold GraphExtractor.topItems
    split <;> simp_all [TopItem.Attached]
  simp only [FileOutline.Attached, GraphExtractor.fileOutline, List.mem_flatMap,
    AttachedTree, ← hchild]
  grind

theorem FileOutline.length_nodesAt (file : FileOutline) (b : NodeId)
    : (file.nodesAt b).length = (file.nodesAt 0).length := by
  have hshift := file.nodesAt_shift b 0
  rw [Nat.zero_add] at hshift
  rw [hshift, List.length_map]

namespace IndexedProject

variable {H : Type} {outline : Text → FileOutline} {computeFileHash : Text → H}
  {state : IndexedProject H} {l : Layout}

namespace Describes

theorem mem_edges_of_owns (h : Describes outline computeFileHash state l) {rel : Text} {p : Placed}
    (hp : l.get? rel = some p) {e : Edge} (he : e ∈ state.graph.allEdges)
    (howns : p.Owns outline e.source)
    : e ∈ p.edges outline := by
  obtain ⟨⟨rel', p'⟩, hentry, he'⟩ := List.mem_flatMap.mp (h.edges.mem_iff.mp he)
  have hp' := Dict.mem_toList_iff.mp hentry
  have hrel := h.apart.rel_eq hp' hp (p'.owns_of_mem_edges outline he').1 howns
  subst hrel
  rw [hp, Option.some.injEq] at hp'
  exact hp' ▸ he'

theorem mem_allEdges_of_mem (h : Describes outline computeFileHash state l) {rel : Text}
    {p : Placed} (hp : l.get? rel = some p) {e : Edge} (he : e ∈ p.edges outline)
    : e ∈ state.graph.allEdges := by
  rw [h.edges.mem_iff]
  exact List.mem_flatMap.mpr ⟨(rel, p), Dict.mem_toList_iff.mpr hp, he⟩

theorem reaches_iff (h : Describes outline computeFileHash state l) {rel : Text} {p : Placed}
    (hp : l.get? rel = some p) {id : NodeId}
    : Reaches state.graph.allEdges p.base id
        ↔ p.Owns outline id ∧ Reaches (p.edges outline) p.base id := by
  constructor
  . intro hreach
    refine hreach.within ?_ ?_
    . have hsize := (outline p.content).size_pos
      unfold Placed.Owns Placed.size
      grind
    . intro e he howns
      have hmem := h.mem_edges_of_owns hp he howns
      exact ⟨(p.owns_of_mem_edges outline hmem).2, hmem⟩
  . rintro ⟨_, hreach⟩
    exact hreach.mono fun e he => h.mem_allEdges_of_mem hp he

theorem reaches_all_iff (h : Describes outline computeFileHash state l) {rel : Text} {p : Placed}
    (hp : l.get? rel = some p)
    : (∀ id ∈ p.nodeIds outline, Reaches state.graph.allEdges p.base id)
        ↔ (outline p.content).Attached := by
  constructor
  . intro hall
    apply FileOutline.attached_of_reaches (b := p.base)
    intro id hid
    exact ((h.reaches_iff hp).mp (hall id hid)).2
  . intro hattached id hid
    exact (h.reaches_iff hp).mpr ⟨p.owns_of_mem_nodeIds outline hid,
      FileOutline.reaches_of_attached hattached hid⟩

end Describes

/-! ## Loading a project -/

variable {parse : Text → Option Cst → Cst}

theorem mem_of_get?_contentsOf_eq {files : List FileRead} {rel content : Text}
    (h : (contentsOf files).get? rel = some content)
    : ∃ file ∈ files, file.rel = rel ∧ file.content = some content := by
  induction files using List.reverseRecOn with
  | nil => simp [contentsOf] at h
  | append_singleton files file ih =>
    rw [contentsOf, List.foldl_append, List.foldl_cons, List.foldl_nil, readInto] at h
    split at h
    . obtain ⟨other, hmem, hother⟩ := ih h
      exact ⟨other, List.mem_append_left _ hmem, hother⟩
    . next new hnew =>
      rw [Dict.get?_insert] at h
      split at h
      . next hrel =>
          exact ⟨file, List.mem_append_right _ List.mem_cons_self, hrel.symm, hnew.trans h⟩
      . obtain ⟨other, hmem, hother⟩ := ih h
        exact ⟨other, List.mem_append_left _ hmem, hother⟩

theorem perm_toList_contentsOf {files : List FileRead} (hrels : (files.map FileRead.rel).Nodup)
    : (contentsOf files).toList ~ files.filterMap fun file => file.content.map fun content =>
        (file.rel, content) := by
  have hnodup : (files.filterMap fun file => file.content.map fun content =>
    (file.rel, content)).Nodup := by
    apply List.Nodup.of_map Prod.fst
    refine List.Nodup.sublist ?_ hrels
    induction files with
    | nil => simp
    | cons file rest ih =>
      have hrest := ih (List.nodup_cons.mp hrels).2
      cases hcontent : file.content with
      | none =>
        rw [List.filterMap_cons_none (by rw [hcontent]; rfl)]
        exact hrest.cons _
      | some content =>
        rw [List.filterMap_cons_some (by rw [hcontent]; rfl)]
        exact hrest.cons_cons _
  rw [List.perm_ext_iff_of_nodup (Dict.toList_nodup _) hnodup]
  rintro ⟨rel, content⟩
  rw [Dict.mem_toList_iff, List.mem_filterMap]
  constructor
  . intro hget
    obtain ⟨file, hfile, hrel, hcontent⟩ := mem_of_get?_contentsOf_eq hget
    exact ⟨file, hfile, by rw [hcontent, hrel]; rfl⟩
  . rintro ⟨file, hfile, heq⟩
    obtain ⟨content', hcontent, heq⟩ := Option.map_eq_some_iff.mp heq
    rw [Prod.mk.injEq] at heq
    obtain ⟨rfl, rfl⟩ := heq
    exact get?_contentsOf_of_mem hrels hfile hcontent

def nodesOfFile (parse : Text → Option Cst → Cst) (file : FileRead) : Nat :=
  match file.content with
  | none => 0
  | some content => (GraphExtractor.new.extract (parse content none) 0).1.1.length

theorem length_extract (ex : GraphExtractor) (tree : Cst)
    : (ex.extract tree 0).1.1.length = ((GraphExtractor.fileOutline tree).nodesAt 0).length := by
  have hnodes := congrArg List.length (ex.extract_extracts tree 0).nodes
  rw [List.length_map, List.length_map, FileOutline.length_nodesAt] at hnodes
  exact hnodes

theorem Holds.nodeCount_eq {files : List FileRead} (hrels : (files.map FileRead.rel).Nodup)
    (h : Holds (parsedOutline parse) computeFileHash state l (contentsOf files))
    : state.graph.nodeCount = files.foldr (fun file n => nodesOfFile parse file + n) 0 := by
  have hsum : files.foldr (fun file n => nodesOfFile parse file + n) 0
      = (files.map (nodesOfFile parse)).sum := by
    rw [List.sum_eq_foldr, List.foldr_map]
  rw [hsum]
  have hcount : state.graph.nodeCount = (Layout.nodes (parsedOutline parse) l.toList).length := by
    have hlength := h.describes.nodes.length_eq
    rw [List.length_map, List.length_map, InMemoryGraph.allNodes, List.length_map] at hlength
    exact hlength
  have hentries := Dict.perm_toList_map (f := fun _ => Placed.content) h.contents
  have hfiles := (hentries.symm.trans (perm_toList_contentsOf hrels)).map fun e =>
    ((parsedOutline parse e.2).nodesAt 0).length
  rw [List.map_map] at hfiles
  rw [hcount, Layout.nodes, List.length_flatMap]
  have hsizes : l.toList.map (fun e => (e.2.nodes (parsedOutline parse)).length)
      = l.toList.map ((fun e => ((parsedOutline parse e.2).nodesAt 0).length) ∘ fun e =>
        (e.1, e.2.content)) := by
    apply List.map_congr_left
    intro e _
    exact FileOutline.length_nodesAt _ _
  rw [hsizes, hfiles.sum_eq]
  clear hfiles hentries hsizes hcount hsum h hrels
  induction files with
  | nil => rfl
  | cons file rest ih =>
    cases hcontent : file.content with
    | none =>
      rw [List.filterMap_cons_none (by rw [hcontent]; rfl), ih, List.map_cons, List.sum_cons]
      simp [nodesOfFile, hcontent]
    | some content =>
      rw [List.filterMap_cons_some (by rw [hcontent]; rfl), List.map_cons, List.sum_cons, ih,
        List.map_cons, List.sum_cons]
      simp [nodesOfFile, hcontent, length_extract, parsedOutline]

theorem get?_fileMap_of_notMem {files : List FileRead} {rel : Text}
    (h : rel ∉ files.map FileRead.rel) (state : IndexedProject H)
    : (files.foldl (indexFile parse computeFileHash) state).fileMap.get? rel
        = state.fileMap.get? rel := by
  induction files generalizing state with
  | nil => rfl
  | cons file rest ih =>
    rw [List.map_cons, List.mem_cons, not_or] at h
    rw [List.foldl_cons, ih h.2]
    unfold indexFile
    split
    . rfl
    . rw [Dict.get?_insert_of_ne _ _ h.1]

variable (parse computeFileHash) in
theorem get?_fileMap_indexProject {files before after : List FileRead} {file : FileRead}
    {content : Text} (hrels : (files.map FileRead.rel).Nodup)
    (hsplit : files = before ++ file :: after) (hcontent : file.content = some content)
    : (indexProject parse computeFileHash files).fileMap.get? file.rel
        = some (indexProject parse computeFileHash before).extractor.nextId := by
  subst hsplit
  rw [List.map_append, List.map_cons, List.nodup_append, List.nodup_cons] at hrels
  rw [indexProject, List.foldl_append, List.foldl_cons, get?_fileMap_of_notMem hrels.2.1.1]
  have hhead :=
    (indexProject parse computeFileHash before).extractor.head?_extract (parse content none) 0
  change (indexFile parse computeFileHash (indexProject parse computeFileHash before)
    file).fileMap.get? file.rel = _
  rw [indexFile, hcontent]
  simp only [hhead, Option.getD_some, Dict.get?_insert_self]

end IndexedProject
end HdlGraph
