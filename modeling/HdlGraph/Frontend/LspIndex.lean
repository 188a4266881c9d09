import HdlGraph.Frontend.GotoDefinition
import HdlGraph.Project.Located

/-!
This module contains the index of the language server beside the graph that the command line builds
of the same files. The graphs are the same; the server numbers the files instead of taking the ids
of their nodes.
-/

namespace HdlGraph
namespace Lsp

open scoped List
open Blocks ProjectState

variable {parse : Text → Option Cst → Cst} {files : List FileRead}

/-! ## The blocks of the files -/

section Blocks

variable (parse)

def asRead (source _rel : Text) : Text := source

theorem fileOutlines_cons (file : FileRead) (rest : List FileRead)
    : fileOutlines parse (file :: rest) = (outlineOf parse asRead file).toList
        ++ fileOutlines parse rest := by
  unfold fileOutlines outlineOf asRead
  cases hcontent : file.content with
  | none => rw [List.filterMap_cons_none (by rw [hcontent]; rfl)]; rfl
  | some content => rw [List.filterMap_cons_some (by rw [hcontent]; rfl)]; rfl

theorem stop_asRead (b : Nat) (files : List FileRead)
    : stop (blockSize parse asRead) b files = b + sizes (fileOutlines parse files) := by
  induction files generalizing b with
  | nil => rfl
  | cons file rest ih =>
    rw [stop, ih, blockSize, fileOutlines_cons, sizes_append, Nat.add_assoc]
    cases outlineOf parse asRead file <;> rfl

theorem flatMap_nodes_place (b : Nat) (files : List FileRead)
    : ((place (blockSize parse asRead) b files).flatMap fun x => (subgraphAt parse asRead x).1)
        = (nodesFrom b (fileOutlines parse files)).map some := by
  induction files generalizing b with
  | nil => rfl
  | cons file rest ih =>
    rw [place, List.flatMap_cons, ih, subgraphAt, blockSize, fileOutlines_cons, nodesFrom_append,
      List.map_append]
    cases outlineOf parse asRead file with
    | none => rfl
    | some outline =>
      rw [Option.elim_some, Option.elim_some, Option.toList_some, nodesFrom, nodesFrom,
        List.append_nil]; rfl

theorem flatMap_edges_place (b : Nat) (files : List FileRead)
    : ((place (blockSize parse asRead) b files).flatMap fun x => (subgraphAt parse asRead x).2)
        = edgesFrom b (fileOutlines parse files) := by
  induction files generalizing b with
  | nil => rfl
  | cons file rest ih =>
    rw [place, List.flatMap_cons, ih, subgraphAt, blockSize, fileOutlines_cons, edgesFrom_append]
    cases outlineOf parse asRead file with
    | none => rfl
    | some outline =>
      rw [Option.elim_some, Option.elim_some, Option.toList_some, edgesFrom, edgesFrom,
        List.append_nil]; rfl

end Blocks

/-! ## The maps of files -/

theorem parsedFiles_append_singleton (files : List FileRead) (file : FileRead)
    : parsedFiles parse (files ++ [file])
        = parsedFiles parse files
          ++ (file.content.map fun content => (file.rel, parse content none)).toList := by
  rw [parsedFiles, List.filterMap_append, parsedFiles]
  cases hcontent : file.content with
  | none => rw [List.filterMap_cons_none (by rw [hcontent]; rfl)]; rfl
  | some content => rw [List.filterMap_cons_some (by rw [hcontent]; rfl)]; rfl

theorem exists_split_concat {trees : List (Text × Cst)} {t : Text × Cst} {rel : Text}
    {p : List (Text × Cst) → Prop}
    : (∃ front tree back, trees ++ [t] = front ++ (rel, tree) :: back ∧ p front)
        ↔ (t.1 = rel ∧ p trees) ∨ ∃ front tree back, trees = front ++ (rel, tree) :: back
          ∧ p front := by
  constructor
  . rintro ⟨front, tree, back, hsplit, hp⟩
    rcases List.eq_nil_or_concat back with rfl | ⟨back, t', rfl⟩
    . obtain ⟨rfl, heq⟩ := List.append_inj' hsplit rfl
      rw [List.singleton_inj] at heq
      exact .inl ⟨congrArg Prod.fst heq, hp⟩
    . rw [List.concat_eq_append, ← List.cons_append, ← List.append_assoc] at hsplit
      obtain ⟨rfl, _⟩ := List.append_inj' hsplit rfl
      exact .inr ⟨front, tree, back, rfl, hp⟩
  . rintro (⟨rfl, hp⟩ | ⟨front, tree, back, rfl, hp⟩)
    . exact ⟨trees, t.2, [], rfl, hp⟩
    . exact ⟨front, tree, back ++ [t], by simp, hp⟩

theorem get?_fileMap_loadOrBuild (hrels : (files.map FileRead.rel).Nodup) {rel : Text} {id : NodeId}
    : (loadOrBuild parse files).fileMap.get? rel = some id
        ↔
      ∃ front tree back, parsedFiles parse files = front ++ (rel, tree) :: back
        ∧ id = 1 + sizes (front.map fun t => GraphExtractor.fileOutline t.2) := by
  have hmap : (loadOrBuild parse files).fileMap.get? rel
      = (lastUnder rel (ProjectState.placed parse asRead files)).map Prod.fst :=
    (loaded_foldl parse asRead files).fileMap rel
  rw [hmap]
  clear hmap
  induction files using List.reverseRecOn with
  | nil => simp [ProjectState.placed, place, lastUnder, parsedFiles]
  | append_singleton files file ih =>
    rw [List.map_append, List.map_singleton, List.nodup_append] at hrels
    rw [placed_append_singleton, lastUnder_append_singleton, parsedFiles_append_singleton]
    cases hcontent : file.content with
    | none =>
      rw [if_neg (by simp), Option.map_none, Option.toList_none, List.append_nil]
      exact ih hrels.1
    | some content =>
      have hrest := ih hrels.1
      rw [Option.map_some, Option.toList_some, exists_split_concat]
      by_cases hrel : file.rel = rel
      . rw [if_pos ⟨hrel, rfl⟩, Option.map_some, Option.some.injEq, stop_asRead, fileOutlines_eq]
        constructor
        . intro hid
          exact .inl ⟨hrel, hid.symm⟩
        . rintro (⟨_, hid⟩ | hfront)
          . exact hid.symm
          . -- no file in front has the path
            obtain ⟨x, hlast, _⟩ := Option.map_eq_some_iff.mp (hrest.mpr hfront)
            obtain ⟨hx, hxrel, _⟩ := mem_of_lastUnder hlast
            have hsnd : (ProjectState.placed parse asRead files).map Prod.snd = files :=
              map_snd_place _ _
            have hmem : x.2 ∈ files := hsnd ▸ List.mem_map_of_mem hx
            exact absurd (hxrel.trans hrel.symm)
              (hrels.2.2 _ (List.mem_map_of_mem hmem) _ (List.mem_singleton.mpr rfl))
      . rw [if_neg fun h => hrel h.1]
        exact hrest.trans ⟨.inr, fun h => h.resolve_left fun h => hrel h.1⟩

/-! ## Both indexes -/

/-- All files that can be read are without declarations, except for the last one. -/
def OnlyLastHasItems (parse : Text → Option Cst → Cst) (files : List FileRead) : Prop :=
  ∀ before last, fileOutlines parse files = before ++ [last] →
    ∀ outline ∈ before, outline.items = []

theorem fileMap_eq_iff (hrels : (files.map FileRead.rel).Nodup)
    : (∀ rel, (IndexLoop.indexFiles parse files).finish.fileMap.get? rel
        = (loadOrBuild parse files).fileMap.get? rel)
        ↔ OnlyLastHasItems parse files := by
  have hparsed := nodup_parsedFiles parse hrels
  have hsplits : ∀ {front : List (Text × Cst)} {t : Text × Cst} {back : List (Text × Cst)},
      parsedFiles parse files = front ++ t :: back →
      fileOutlines parse files = (front.map fun t => GraphExtractor.fileOutline t.2)
        ++ GraphExtractor.fileOutline t.2 :: back.map fun t => GraphExtractor.fileOutline t.2 := by
    intro front t back hsplit
    rw [fileOutlines_eq, hsplit, List.map_append, List.map_cons]
  constructor
  . intro h before last hlast
    rw [fileOutlines_eq, List.map_eq_append_iff] at hlast
    obtain ⟨front, back, hsplit, rfl, hback⟩ := hlast
    obtain ⟨t, rfl, _⟩ := List.map_eq_singleton_iff.mp hback
    have hindex : (IndexLoop.indexFiles parse files).finish.fileMap.get? t.1 = some _ :=
      (get?_fileMap hparsed).mpr ⟨front, t.2, [], hsplit, rfl⟩
    have hstate : (loadOrBuild parse files).fileMap.get? t.1 = some _ :=
      (get?_fileMap_loadOrBuild hrels).mpr ⟨front, t.2, [], hsplit, rfl⟩
    have hids := hindex.symm.trans ((h t.1).trans hstate)
    apply empty_of_sizes
    rw [List.length_map]
    rw [Option.some.injEq, Nat.add_comm, Nat.add_left_cancel_iff] at hids
    exact Nat.le_of_eq hids.symm
  . intro h rel
    have hsizes : ∀ front tree back, parsedFiles parse files = front ++ (rel, tree) :: back →
        1 + sizes (front.map fun t => GraphExtractor.fileOutline t.2) = front.length + 1 := by
      intro front tree back hsplit
      have hempty : ∀ outline ∈ front.map fun t => GraphExtractor.fileOutline t.2,
          outline.items = [] := by
        intro outline houtline
        have houtlines := hsplits hsplit
        rcases List.eq_nil_or_concat back with rfl | ⟨back, t, rfl⟩
        . exact h _ _ houtlines outline houtline
        . rw [List.concat_eq_append, List.map_append, List.map_singleton, ← List.cons_append,
            ← List.append_assoc] at houtlines
          exact h _ _ houtlines outline (List.mem_append_left _ houtline)
      rw [sizes_of_empty hempty, List.length_map, Nat.add_comm]
    apply Option.ext
    intro id
    refine (get?_fileMap hparsed).trans (.trans ?_ (get?_fileMap_loadOrBuild hrels).symm)
    constructor
    . rintro ⟨front, tree, back, hsplit, rfl⟩
      exact ⟨front, tree, back, hsplit, (hsizes front tree back hsplit).symm⟩
    . rintro ⟨front, tree, back, hsplit, rfl⟩
      exact ⟨front, tree, back, hsplit, hsizes front tree back hsplit⟩

theorem containsKey_fileMap_eq (hrels : (files.map FileRead.rel).Nodup) (rel : Text)
    : (IndexLoop.indexFiles parse files).finish.fileMap.containsKey rel
        = (loadOrBuild parse files).fileMap.containsKey rel := by
  rw [Bool.eq_iff_iff, Dict.containsKey_iff, Dict.containsKey_iff]
  constructor
  . rintro ⟨id, hid⟩
    obtain ⟨front, tree, back, hsplit, _⟩ := (get?_fileMap (nodup_parsedFiles parse hrels)).mp hid
    exact ⟨_, (get?_fileMap_loadOrBuild hrels).mpr ⟨front, tree, back, hsplit, rfl⟩⟩
  . rintro ⟨id, hid⟩
    obtain ⟨front, tree, back, hsplit, _⟩ := (get?_fileMap_loadOrBuild hrels).mp hid
    exact ⟨_, (get?_fileMap (nodup_parsedFiles parse hrels)).mpr ⟨front, tree, back, hsplit, rfl⟩⟩

/--
The language server has the same nodes and the same edges as the command line has for the files of
the directory, and the same files in its map. The map leads to the same nodes if and only if all
files but the last one are without declarations.
-/
theorem buildIndex_agrees_with_loadOrBuild (parse : Text → Option Cst → Cst) (project : PathBuf)
    (dir : Directory)
    : let index := buildIndex parse project dir
      let state := loadOrBuild parse (sourceFiles project dir)
      (index.graph.allNodes.map (·.named index.symbols)
        ~ state.graph.allNodes.map (·.named state.symbols))
        ∧ (index.graph.allEdges ~ state.graph.allEdges)
        ∧ (∀ rel, index.fileMap.containsKey rel = state.fileMap.containsKey rel)
        ∧ ((∀ rel, index.fileMap.get? rel = state.fileMap.get? rel)
            ↔ OnlyLastHasItems parse (sourceFiles project dir)) := by
  intro index state
  have hrels := nodup_sourceFiles project dir
  have hloaded := loaded_foldl parse asRead (sourceFiles project dir)
  have hindexed := indexed_indexTrees (parsedFiles parse (sourceFiles project dir))
  rw [← fileOutlines_eq, ← indexFiles_eq] at hindexed
  refine ⟨?_, ?_, containsKey_fileMap_eq hrels, fileMap_eq_iff hrels⟩
  . have hnodes := hloaded.nodes
    rw [ProjectState.placed, flatMap_nodes_place] at hnodes
    exact hindexed.nodes.trans hnodes.symm
  . have hedges := hloaded.edges
    rw [ProjectState.placed, flatMap_edges_place] at hedges
    exact hindexed.edges.perm_allEdges.trans hedges.symm

end Lsp
end HdlGraph
