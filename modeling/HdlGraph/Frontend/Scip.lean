import HdlGraph.Frontend.Definitions

/-!
This module contains the export to SCIP. The exporter writes a document for each file, with the
items of the file and what these contain or define.
-/

namespace HdlGraph

open scoped List

structure Occurrence where
  symbol : Text
  kind : Text
  deriving DecidableEq, Repr

structure Document where
  relativePath : Text
  language : Text
  occurrences : List Occurrence
  deriving DecidableEq, Repr

/-! ## The export -/

namespace ScipExporter

section

variable (g : InMemoryGraph) (symbols : SymbolTable)

def nodeToOccurrence (node : GraphNode) : Option Occurrence :=
  match node.kind with
  | .module name => do return ⟨"hdl module ".toList ++ (← symbols.resolve name), "Module".toList⟩
  | .moduleInstance name moduleType => do
    let n ← symbols.resolve name
    let t ← symbols.resolve moduleType
    return ⟨"hdl instance ".toList ++ n ++ " ".toList ++ t, "Instance".toList⟩
  | .class name _ => do return ⟨"hdl class ".toList ++ (← symbols.resolve name), "Class".toList⟩
  | .package name => do return ⟨"hdl package ".toList ++ (← symbols.resolve name), "Package".toList⟩
  | .interface name =>
    do return ⟨"hdl interface ".toList ++ (← symbols.resolve name), "Interface".toList⟩
  | .function name _ =>
    do return ⟨"hdl function ".toList ++ (← symbols.resolve name), "Function".toList⟩
  | .signalDecl name _ =>
    do return ⟨"hdl signal ".toList ++ (← symbols.resolve name), "Variable".toList⟩
  | .modulePort name _ =>
    do return ⟨"hdl port ".toList ++ (← symbols.resolve name), "Parameter".toList⟩
  | _ => none

def occurrenceOf (node : GraphNode) : List (NodeId × Occurrence) :=
  ((nodeToOccurrence symbols node).map (node.id, ·)).toList

def occurrences (fileId : NodeId) : List (NodeId × Occurrence) :=
  (g.getOutgoing fileId).flatMap fun edge =>
    if edge.edgeType = .contains then
      match g.getNode edge.target with
      | some node =>
        occurrenceOf symbols node ++ (g.getOutgoing node.id).flatMap fun ke =>
          if ke.edgeType = .defines ∨ ke.edgeType = .contains then
            (g.getNode ke.target).elim [] (occurrenceOf symbols)
          else
            []
      | none => []
    else
      []

-- The `documents` of the index; a file without occurrences has none
def documents (fileMap : List (Text × NodeId)) : List Document :=
  fileMap.filterMap fun (filePath, fileId) =>
    if (occurrences g symbols fileId).isEmpty then none
    else some ⟨filePath, "SystemVerilog".toList, (occurrences g symbols fileId).map Prod.snd⟩

def exported (fileMap : List (Text × NodeId)) : List (Text × NodeId) :=
  fileMap.flatMap fun (filePath, fileId) => (occurrences g symbols fileId).map fun occurrence =>
    (filePath, occurrence.1)

end
end ScipExporter

/-! ## What is to be exported -/

namespace ProjectState

variable (parse : Text → Option Cst → Cst) (prepare : Text → Text → Text) (files : List FileRead)

def occurringNodes : List (Text × NodeId) :=
  (subgraphs parse prepare files).flatMap fun (file, nodes, _) =>
    nodes.filterMap fun named => named.bind fun content =>
      if content.kind.definedName.isSome then some (file.rel, content.id) else none

/--
Each of these nodes has one occurrence, which is in the document of its file, and there are no
others.
-/
structure ExportsAll : Prop where
  nodes : ((loadFiles parse prepare files).graph.allNodes.filter fun node =>
    node.kind.definedName.isSome).map GraphNode.id
    ~ (occurringNodes parse prepare files).map Prod.snd
  occurrences : ∀ fileMap, fileMap ~ (loadFiles parse prepare files).fileMap.toList →
    ScipExporter.exported (loadFiles parse prepare files).graph
        (loadFiles parse prepare files).symbols fileMap
      ~ occurringNodes parse prepare files

end ProjectState

namespace Selection

def occurring : Selection where
  kinds kind := kind.definedName.isSome
  top kind := kind.definedName.isSome
  below edge kind := edge.isScope && kind.definedName.isSome
  kinds_of_top := id
  kinds_of_below := by simp
  top_of_kinds := fun _ _ h => h
  sourceFile := rfl

end Selection

/-! ## Where the export is complete -/

namespace ProjectState

theorem definedName_of_resolve {symbols : SymbolTable} (kind : NodeKind InternedString)
    (named : NodeKind Text) (h : kind.resolve symbols = some named)
    : kind.definedName.isSome = named.definedName.isSome := by
  cases NodeKind.says_of_resolve h <;> rfl

theorem map_fst_occurrenceOf {symbols : SymbolTable} {node : GraphNode} {named : NodeKind Text}
    (h : node.kind.resolve symbols = some named)
    : (ScipExporter.occurrenceOf symbols node).map Prod.fst = if named.definedName.isSome
        then [node.id] else [] := by
  rw [ScipExporter.occurrenceOf, ScipExporter.nodeToOccurrence]
  have hsays := NodeKind.says_of_resolve h
  generalize node.kind = kind at hsays
  cases hsays <;> simp_all [NodeKind.definedName]

theorem exported_eq {g : InMemoryGraph} (hkeyed : g.Keyed) (symbols : SymbolTable)
    (fileMap : List (Text × NodeId))
    : ScipExporter.exported g symbols fileMap
        = g.visitTwoLevels
          (fun file _ node => ((ScipExporter.occurrenceOf symbols node).map Prod.fst).map (file, ·))
            (fun file _ ke kid =>
              if ke.edgeType.isScope then
                ((ScipExporter.occurrenceOf symbols kid).map Prod.fst).map (file, ·) else [])
            fileMap := by
  apply List.flatMap_congr
  rintro ⟨file, fid⟩ _
  simp only [ScipExporter.occurrences, List.map_flatMap]
  apply List.flatMap_congr
  intro e _
  split
  . cases hget : g.getNode e.target with
    | none => rfl
    | some node =>
      simp only [(hkeyed.getNode_eq_some_iff.mp hget).2, List.map_append,
        List.map_flatMap, List.map_map]
      congr 1
      apply List.flatMap_congr
      intro ke _
      have hscope : (ke.edgeType = .defines ∨ ke.edgeType = .contains)
          ↔ ke.edgeType.isScope = true := by
        cases ke.edgeType <;> simp [EdgeType.isScope]
      simp only [hscope]
      cases g.getNode ke.target <;> split <;> rfl
  . rfl

variable (parse : Text → Option Cst → Cst) (prepare : Text → Text → Text) (files : List FileRead)

theorem occurringNodes_eq
    : occurringNodes parse prepare files
        = (nodesOfKinds parse prepare files .occurring).map fun z => (z.1, z.2.id) := by
  rw [occurringNodes, subgraphs_eq, List.flatMap_map, nodesOfKinds, List.map_flatMap]
  apply List.flatMap_congr
  intro x _
  cases hout : outlineOf parse prepare x.2 with
  | none => simp [subgraphAt, hout, nodesIn_of_none hout]
  | some outline =>
    simp only [subgraphAt_of_some hout, nodesIn, hout, Option.elim_some]
    rw [List.filterMap_map, List.map_map, ← List.filterMap_eq_map, List.filterMap_filter]
    rfl

/--
The export is complete if and only if all that is exported is where the exporter gets exactly once.
-/
theorem exportsAll_iff : ExportsAll parse prepare files
    ↔ ShowsAll parse prepare files .occurring := by
  have h := loaded_foldl parse prepare files
  have hoccurrences : ∀ fileMap, fileMap ~ (loadFiles parse prepare files).fileMap.toList →
      ScipExporter.exported (loadFiles parse prepare files).graph
          (loadFiles parse prepare files).symbols fileMap
        ~ (seenNodes parse prepare files .occurring).map fun z => (z.1, z.2.id) := by
    intro fileMap hfileMap
    have hkeyed : (loadFiles parse prepare files).graph.Keyed := h.reachable.keyed
    rw [exported_eq hkeyed, ← List.map_id (InMemoryGraph.visitTwoLevels _ _ _ _)]
    apply h.perm_map_visit id Prod.mk _ _ hfileMap
    . intro file fid node named
        (hresolve : node.kind.resolve (loadFiles parse prepare files).symbols = some named)
      rw [List.map_id, map_fst_occurrenceOf hresolve, apply_ite (List.map _)]
      rfl
    . intro file node ke kid named
        (hresolve : kid.kind.resolve (loadFiles parse prepare files).symbols = some named)
      rw [List.map_id, map_fst_occurrenceOf hresolve, apply_ite (List.map _)]
      cases hedge : ke.edgeType.isScope <;> simp [Selection.occurring, hedge]
  constructor
  . intro hall
    rw [← perm_map_id_iff]
    have hpairs := (hoccurrences _ (.refl _)).symm.trans (hall.occurrences _ (.refl _))
    rw [occurringNodes_eq] at hpairs
    have hids := hpairs.map Prod.snd
    rwa [List.map_map, List.map_map] at hids
  . intro hshows
    refine ⟨?_, ?_⟩
    . rw [occurringNodes_eq, List.map_map]
      exact h.perm_filter_allNodes (s := .occurring) definedName_of_resolve
    . intro fileMap hfileMap
      rw [occurringNodes_eq]
      exact (hoccurrences fileMap hfileMap).trans ((perm_iff.mpr hshows).map _)

-- Two edges lead to the class, and for each of them there is an occurrence
theorem not_exportsAll_class : ¬ExportsAll parseClass (fun source _ => source) [classFile] := by
  intro h
  have hlength := (h.occurrences _ (.refl _)).length_eq
  revert hlength
  decide +kernel

end ProjectState
end HdlGraph
