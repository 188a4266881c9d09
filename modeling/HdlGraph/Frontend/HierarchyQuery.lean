import HdlGraph.Frontend.FileOfNode
import HdlGraph.Frontend.Hierarchy

/-!
This module contains the queries for the hierarchy of a module. The command line goes over the files
to find the module, the tool server takes the first node with the name that is a module, a class, a
package or an interface.
-/

namespace HdlGraph

open scoped List
open InMemoryGraph

namespace CmdHierarchy

variable (g : InMemoryGraph) (symbols : SymbolTable)

def isNamedModule (name : Text) (node : GraphNode) : Bool :=
  match node.kind with
  | .module n => symbols.resolve n = some name
  | _ => false

def findModule (fileMap : List (Text × NodeId)) (name : Text) : Option NodeId :=
  fileMap.findSome? fun (_, fid) => (g.getOutgoing fid).findSome? fun edge =>
    if edge.edgeType = .contains ∧ (g.getNode edge.target).any (isNamedModule symbols name) then
      some edge.target else none

def cmdHierarchy (fuel : Nat) (fileMap : List (Text × NodeId)) (name : Text) : Option Text :=
  match findModule g symbols fileMap name with
  | some id =>
    (g.printTree symbols fuel 1 id).map fun lines => println name ++ lines.flatMap println
  | none => some (println ("Module not found: ".toList ++ name))

end CmdHierarchy

namespace HierarchyTool

variable (g : InMemoryGraph) (symbols : SymbolTable)

def isNamed (name : Text) (node : GraphNode) : Bool :=
  match node.kind with
  | .module n | .class n _ | .package n | .interface n => symbols.resolve n = some name
  | _ => false

def run (fuel : Nat) (nodes : List GraphNode) (name : Text) : Option Text :=
  match nodes.find? (isNamed symbols name) with
  | some node => (g.printTree symbols fuel 1 node.id).map fun lines =>
    name ++ "\n".toList ++ lines.flatMap fun line => line ++ "\n".toList
  | none => some ("Module/Class not found: ".toList ++ name)

end HierarchyTool

open CmdHierarchy HierarchyTool

section Search

variable {g : InMemoryGraph} {symbols : SymbolTable} {name : Text}

theorem isNamed_of_isNamedModule {node : GraphNode} (h : isNamedModule symbols name node = true)
    : isNamed symbols name node = true := by
  unfold isNamedModule at h
  split at h
  . next n hkind =>
    rw [isNamed, hkind]
    exact h
  . contradiction

theorem isModule_of_isNamedModule {node : GraphNode} (hnode : g.getNode node.id = some node)
    (h : isNamedModule symbols name node = true)
    : IsModule g node.id = true := by
  have hkind : ∃ n, node.kind = .module n := by
    unfold isNamedModule at h
    split at h
    . next n hkind => exact ⟨n, hkind⟩
    . contradiction
  obtain ⟨n, hkind⟩ := hkind
  rw [IsModule, hnode, Option.any_some, hkind]

theorem exists_of_findModule {fileMap : List (Text × NodeId)} {id : NodeId}
    (h : findModule g symbols fileMap name = some id)
    : ∃ entry ∈ fileMap, ∃ e ∈ g.getOutgoing entry.2, e.edgeType = .contains ∧ e.target = id
        ∧ ∃ node, g.getNode id = some node ∧ isNamedModule symbols name node = true := by
  obtain ⟨⟨rel, fid⟩, hentry, h⟩ := List.exists_of_findSome?_eq_some h
  obtain ⟨e, he, h⟩ := List.exists_of_findSome?_eq_some h
  rw [Option.ite_none_right_eq_some, Option.some.injEq] at h
  obtain ⟨⟨hcontains, hmodule⟩, rfl⟩ := h
  exact ⟨(rel, fid), hentry, e, he, hcontains, rfl, (Option.any_eq_true _ _).mp hmodule⟩

theorem findModule_ne_none {fileMap : List (Text × NodeId)} {entry : Text × NodeId}
    (hentry : entry ∈ fileMap) {e : Edge} (he : e ∈ g.getOutgoing entry.2)
    (hcontains : e.edgeType = .contains) {node : GraphNode} (hnode : g.getNode e.target = some node)
    (hmodule : isNamedModule symbols name node = true)
    : findModule g symbols fileMap name ≠ none := by
  intro hnone
  have hfile := List.findSome?_eq_none_iff.mp hnone entry hentry
  have hedge := List.findSome?_eq_none_iff.mp hfile e he
  simp [hcontains, hnode, hmodule] at hedge

end Search

namespace ProjectState

/--
The node is the only module, class, package or interface with the name. It is a module that one of
the listed files contains.
-/
structure OnlyModule (state : ProjectState) (name : Text) (node : GraphNode) : Prop where
  stored : state.graph.getNode node.id = some node
  isModule : isNamedModule state.symbols name node = true
  only : ∀ other ∈ state.graph.allNodes, isNamed state.symbols name other = true → other = node
  listed : ∃ rel fid, state.fileMap.get? rel = some fid ∧ ∃ e ∈ state.graph.getOutgoing fid,
    e.edgeType = .contains ∧ e.target = node.id

structure AnswersTree (state : ProjectState) (name : Text) (printed : List (Nat × NodeId))
    (fuel : Nat) : Prop where
  cli : ∀ fileMap, fileMap ~ state.fileMap.toList →
    cmdHierarchy state.graph state.symbols fuel fileMap name
    = some (println name ++ (printed.map (treeLine state.graph state.symbols)).flatMap println)
  mcp : ∀ nodes, nodes ~ state.graph.allNodes →
    HierarchyTool.run state.graph state.symbols fuel nodes name
    = some (println name ++ (printed.map (treeLine state.graph state.symbols)).flatMap println)

namespace OnlyModule

variable {state : ProjectState} {name : Text} {node : GraphNode}

theorem findModule_eq (hkeyed : state.graph.Keyed) (h : OnlyModule state name node)
    {fileMap : List (Text × NodeId)} (hfileMap : fileMap ~ state.fileMap.toList)
    : findModule state.graph state.symbols fileMap name = some node.id := by
  obtain ⟨rel, fid, hrel, e, he, hcontains, htarget⟩ := h.listed
  have hentry : (rel, fid) ∈ fileMap := hfileMap.mem_iff.mpr (Dict.mem_toList_iff.mpr hrel)
  have hsome := findModule_ne_none hentry he hcontains (htarget.symm ▸ h.stored) h.isModule
  obtain ⟨id, hid⟩ := Option.ne_none_iff_exists'.mp hsome
  obtain ⟨_, _, _, _, _, _, other, hother, hmodule⟩ := exists_of_findModule hid
  have ⟨hmem, hid'⟩ := hkeyed.getNode_eq_some_iff.mp hother
  rw [hid, ← hid', h.only other hmem (isNamed_of_isNamedModule hmodule)]

theorem find?_eq (hkeyed : state.graph.Keyed) (h : OnlyModule state name node)
    {nodes : List GraphNode} (hnodes : nodes ~ state.graph.allNodes)
    : nodes.find? (isNamed state.symbols name) = some node := by
  have hmem := hnodes.mem_iff.mpr (hkeyed.getNode_eq_some_iff.mp h.stored).1
  cases hfind : nodes.find? (isNamed state.symbols name) with
  | none =>
    exact absurd (isNamed_of_isNamedModule h.isModule) (List.find?_eq_none.mp hfind node hmem)
  | some other =>
    have hnamed : isNamed state.symbols name other = true := List.find?_some hfind
    rw [h.only other (hnodes.mem_iff.mp (List.mem_of_find?_eq_some hfind)) hnamed]

end OnlyModule

/--
For the only node with its name, a module that hides nothing below it, both queries print the same
text: a line for every node of the hierarchy below the module, once and further in than what it is
below of.
-/
theorem hierarchy_loadFiles (parse : Text → Option Cst → Cst) (prepare : Text → Text → Text)
    (files : List FileRead) {name : Text} {node : GraphNode}
    (honly : OnlyModule (loadFiles parse prepare files) name node)
    (hhidden : NothingHidden (loadFiles parse prepare files).graph node.id)
    : ∃ printed, Displays (loadFiles parse prepare files).graph node.id printed
        ∧ ∃ bound, ∀ fuel, bound < fuel →
          AnswersTree (loadFiles parse prepare files) name printed fuel := by
  obtain ⟨nextId, roots, log, h⟩ := loadFiles_planted parse prepare files
  have hroot := h.module_notMem (isModule_of_isNamedModule honly.stored honly.isModule)
  obtain ⟨printed, hdisplays, bound, hrun⟩ := (h.showsTree_iff_nothingHidden hroot).mpr hhidden
    (loadFiles parse prepare files).symbols 1
  refine ⟨printed, hdisplays, bound, ?_⟩
  intro fuel hfuel
  have htree := (hrun fuel hfuel).2
  constructor
  . intro fileMap hfileMap
    rw [cmdHierarchy, honly.findModule_eq h.reachable.keyed hfileMap]
    simp only [htree, Option.map_some]
  . intro nodes hnodes
    rw [HierarchyTool.run, honly.find?_eq h.reachable.keyed hnodes]
    simp only [htree, Option.map_some]
    rfl

theorem eq_of_leadsTo_child {g : InMemoryGraph} {m w u : NodeId} (hm : ∀ u ∈ targets g m, u = w)
    (hw : targets g w = []) (h : LeadsTo g m u)
    : u = w := by
  induction h with
  | single hstep => exact hm _ hstep
  | tail _ hstep ih =>
    rw [ih, Forest.Step, hw] at hstep
    exact absurd hstep List.not_mem_nil

theorem hierarchy_loadFiles_port
    : let state := loadFiles parsePort (fun source _ => source) [portFile]
      ∃ node, OnlyModule state "m".toList node ∧ ∃ printed, Displays state.graph node.id printed
        ∧ ∃ bound, ∀ fuel, bound < fuel → AnswersTree state "m".toList printed fuel := by
  intro state
  obtain ⟨node, hnode⟩ : ∃ node, state.graph.getNode 2 = some node :=
    Option.isSome_iff_exists.mp (by decide +kernel)
  have hnodes : ∀ other ∈ state.graph.allNodes, isNamed state.symbols "m".toList other = true →
      other.id = 2 := by
    decide +kernel
  have hkeyed := (loaded_foldl parsePort (fun source _ => source) [portFile]).reachable.keyed
  have hid : node.id = 2 := (hkeyed.getNode_eq_some_iff.mp hnode).2
  have honly : OnlyModule state "m".toList node := by
    refine ⟨hid ▸ hnode, ?_, ?_,
      ⟨"m.sv".toList, 1, by decide +kernel, ⟨1, 2, .contains⟩, by decide +kernel, rfl, hid.symm⟩⟩
    . have hmodule : (state.graph.getNode 2).any (isNamedModule state.symbols "m".toList) = true :=
        by decide +kernel
      rw [hnode] at hmodule
      exact hmodule
    . intro other hother hnamed
      have hsame := hkeyed.getNode_eq_some_iff.mpr ⟨hother, hnodes other hother hnamed⟩
      exact Option.some.inj (hsame.symm.trans hnode)
  have hport : ∀ u, LeadsTo state.graph 2 u → u = 3 :=
    fun u => eq_of_leadsTo_child (by decide +kernel) (by decide +kernel)
  refine ⟨node, honly, hierarchy_loadFiles parsePort (fun source _ => source) [portFile] honly ?_⟩
  rw [hid]
  intro v _ _ u hu _
  rw [hport u hu]
  decide +kernel

end ProjectState
end HdlGraph
