import HdlGraph.Frontend.Instances
import HdlGraph.Frontend.Markdown
import HdlGraph.Project.Conforms

/-!
This module contains the export to Markdown in a single file. Its hierarchy section is printed by a
walk that goes as deep as the graph does, which is not deep: below the instances of a module a
loaded project has nothing.
-/

namespace HdlGraph

open scoped List

namespace MarkdownExporter

/-! ## The document -/

section Document

variable (g : InMemoryGraph) (symbols : SymbolTable)

def modulePart (node : GraphNode) : Option Text :=
  match node.kind with
  | .module name =>
    some ("### ".toList ++ nameOr symbols name ++ "\n\n".toList ++ renderModuleDetail g
      symbols node.id)
  | _ => none

def classPart (node : GraphNode) : Option Text :=
  match node.kind with
  | .class name parent =>
    let p := (parent.bind symbols.resolve).getD []
    let heading :=
      "### ".toList ++ nameOr symbols name ++ if p = [] then [] else " extends ".toList ++ p
    some (heading ++ "\n\n".toList ++ renderClassDetail g symbols node.id)
  | _ => none

def packagePart (node : GraphNode) : Option Text :=
  match node.kind with
  | .package name => some ("### ".toList ++ nameOr symbols name ++ "\n\n".toList)
  | _ => none

def sectionOf (heading : Text) (parts : List Text) : Text :=
  if parts.isEmpty then [] else heading ++ parts.flatten

def moduleSteps (nodes : List GraphNode) : List (Walk.Step NodeId Text) :=
  nodes.filterMap fun node =>
    match node.kind with
    | .module name =>
      some { output := ["- **".toList ++ nameOr symbols name ++ "**".toList], next := some node.id }
    | _ => none

def document (fileMap : List (Text × NodeId)) (nodes : List GraphNode) (hierarchy : List Text)
    : Text :=
  "# HDL Code Graph\n\n".toList
    ++ "## Module Hierarchy\n\n".toList ++ hierarchy.flatMap println ++ "\n".toList
    ++ "## Modules\n\n".toList ++ (nodes.filterMap (modulePart g symbols)).flatten
    ++ sectionOf "## UVM Classes\n\n".toList (nodes.filterMap (classPart g symbols))
    ++ sectionOf "## Packages\n\n".toList (nodes.filterMap (packagePart symbols))
    ++ "## Statistics\n\n".toList
    ++ "- Files: ".toList ++ (Nat.repr fileMap.length).toList ++ "\n".toList
    ++ "- Nodes: ".toList ++ (Nat.repr g.nodeCount).toList ++ "\n".toList
    ++ "- Edges: ".toList ++ (Nat.repr g.edgeCount).toList ++ "\n".toList

-- `nodes` is `all_nodes()`; `none` if the fuel does not suffice for one of the trees
def exportSingle (fileMap : List (Text × NodeId)) (fuel : Nat) (nodes : List GraphNode)
    : Option Text :=
  (Walk.collect (g.printTreeMd symbols fuel 1) (moduleSteps symbols nodes)).map
  (document g symbols fileMap nodes)

end Document

/-! ## What the hierarchy shows -/

section Hierarchy

variable (g : InMemoryGraph) (symbols : SymbolTable)

def instanceItems (nodeId : NodeId) : List Text :=
  (childKinds g nodeId).filterMap fun
    | .moduleInstance name moduleType =>
      some ("  - `".toList ++ nameOr symbols name ++ "` : `".toList ++ nameOr symbols moduleType
        ++ "`".toList)
    | _ => none

def moduleLines (node : GraphNode) : List Text :=
  match node.kind with
  | .module name =>
    ("- **".toList ++ nameOr symbols name ++ "**".toList) :: instanceItems g symbols node.id
  | _ => []

theorem itemList_instances_infix (nodeId : NodeId)
    : itemList "Instances".toList (instanceItems g symbols nodeId)
        <:+: renderModuleDetail g symbols nodeId := by
  unfold renderModuleDetail
  exact ⟨_, _, (List.append_assoc _ _ _).symm⟩

variable {g symbols}

theorem flatMap_output_treeSteps {nodeId : NodeId}
    (h : ∀ e ∈ g.getOutgoing nodeId, ∀ child, g.getNode e.target = some child →
      ∀ name, child.kind ≠ .module name)
    : (g.treeSteps (InMemoryGraph.treeLabelMd symbols) "- ".toList 1 nodeId).flatMap
          Walk.Step.output
        = instanceItems g symbols nodeId := by
  unfold InMemoryGraph.treeSteps instanceItems childKinds
  rw [List.filterMap_filterMap, List.filterMap_eq_flatMap_toList, List.flatMap_assoc,
    List.filterMap_eq_flatMap_toList]
  apply List.flatMap_congr
  intro e he
  cases hget : g.getNode e.target with
  | none => rfl
  | some child =>
    have hkind := h e he child hget
    rw [Option.bind_eq_bind, Option.bind_some, Option.map_some, Option.bind_some]
    cases hk : child.kind with
    | module name => exact absurd hk (hkind name)
    | _ => rfl

/-! ## Graphs that conform to the schema -/

variable {log : List Edge} {node : GraphNode}

theorem getOutgoing_of_instance (hconforms : g.Conforms) (hlog : g.Logs log) (hkeyed : g.Keyed)
    (hnode : node ∈ g.allNodes) {name moduleType : InternedString}
    (hkind : node.kind = .moduleInstance name moduleType)
    : g.getOutgoing node.id = [] := by
  rw [List.eq_nil_iff_forall_not_mem]
  intro e he
  obtain ⟨target, htarget, _⟩ :=
    hconforms e (hlog.perm_allEdges.mem_iff.mpr (hlog.mem_getOutgoing.mp he).1)
  have hadmits := hconforms.admits hlog hkeyed hnode he htarget
  rw [hkind] at hadmits
  contradiction

theorem ne_module_of_module (hconforms : g.Conforms) (hlog : g.Logs log) (hkeyed : g.Keyed)
    (hnode : node ∈ g.allNodes) {name : InternedString} (hkind : node.kind = .module name)
    {e : Edge} (he : e ∈ g.getOutgoing node.id) {child : GraphNode}
    (hchild : g.getNode e.target = some child) (name' : InternedString)
    : child.kind ≠ .module name' := by
  intro hmodule
  have hadmits := hconforms.admits hlog hkeyed hnode he hchild
  rw [hkind, hmodule] at hadmits
  contradiction

theorem treeSteps_of_instance (hconforms : g.Conforms) (hlog : g.Logs log) (hkeyed : g.Keyed)
    (hnode : node ∈ g.allNodes) {name moduleType : InternedString}
    (hkind : node.kind = .moduleInstance name moduleType)
    (label : NodeKind InternedString → Option Text) (mark : Text) (depth : Nat)
    : g.treeSteps label mark depth node.id = [] := by
  rw [InMemoryGraph.treeSteps, getOutgoing_of_instance hconforms hlog hkeyed hnode hkind,
    List.filterMap_nil]

theorem printTreeMd_of_module (hconforms : g.Conforms) (hlog : g.Logs log) (hkeyed : g.Keyed)
    (hnode : node ∈ g.allNodes) {name : InternedString} (hkind : node.kind = .module name)
    {fuel : Nat} (hfuel : 1 < fuel)
    : g.printTreeMd symbols fuel 1 node.id = some (instanceItems g symbols node.id) := by
  obtain ⟨fuel, rfl⟩ : ∃ k, fuel = k + 2 := ⟨fuel - 2, by omega⟩
  have hmodule : ∀ e ∈ g.getOutgoing node.id, ∀ child, g.getNode e.target = some child →
      ∀ name', child.kind ≠ .module name' :=
    fun e he child hchild => ne_module_of_module hconforms hlog hkeyed hnode hkind he hchild
  have hbelow : ∀ step ∈ g.treeSteps (InMemoryGraph.treeLabelMd symbols) "- ".toList 1 node.id,
      ∀ w, step.next = some w →
      g.printTreeMd symbols (fuel + 1) 2 w = some [] := by
    intro step hstep w hw
    simp only [InMemoryGraph.treeSteps, List.mem_filterMap, Option.bind_eq_bind,
      Option.bind_eq_some_iff, Option.pure_def, Option.some.injEq] at hstep
    obtain ⟨e, he, child, hchild, label, hlabel, rfl⟩ := hstep
    obtain rfl := Option.some.inj hw
    obtain ⟨hstored, hid⟩ := hkeyed.getNode_eq_some_iff.mp hchild
    cases hk : child.kind with
    | module name' => exact absurd hk (hmodule e he child hchild name')
    | moduleInstance name' moduleType =>
      rw [InMemoryGraph.printTreeMd, Walk.run, ← hid,
        treeSteps_of_instance hconforms hlog hkeyed hstored hk]
      rfl
    | _ =>
      rw [hk] at hlabel
      contradiction
  rw [InMemoryGraph.printTreeMd, Walk.run, ← flatMap_output_treeSteps hmodule]
  exact Walk.collect_of_leaves hbelow

theorem exportSingle_of_conforms (hconforms : g.Conforms) (hlog : g.Logs log) (hkeyed : g.Keyed)
    {nodes : List GraphNode} (hnodes : nodes ~ g.allNodes) (fileMap : List (Text × NodeId))
    {fuel : Nat} (hfuel : 1 < fuel)
    : exportSingle g symbols fileMap fuel nodes
        = some (document g symbols fileMap nodes (nodes.flatMap (moduleLines g symbols))) := by
  have hbelow : ∀ step ∈ moduleSteps symbols nodes, ∀ w, step.next = some w →
      g.printTreeMd symbols fuel 1 w = some (instanceItems g symbols w) := by
    intro step hstep w hw
    obtain ⟨node, hnode, hstep⟩ := List.mem_filterMap.mp hstep
    cases hk : node.kind with
    | module name =>
      rw [hk, Option.some.injEq] at hstep
      subst hstep
      obtain rfl := Option.some.inj hw
      exact printTreeMd_of_module hconforms hlog hkeyed (hnodes.mem_iff.mp hnode) hk hfuel
    | _ =>
      rw [hk] at hstep
      contradiction
  rw [exportSingle, Walk.collect_eq_flatMap hbelow, Option.map_some]
  congr 2
  rw [moduleSteps, List.filterMap_eq_flatMap_toList, List.flatMap_assoc]
  apply List.flatMap_congr
  intro node _
  unfold moduleLines
  cases node.kind with
  | module name => exact List.append_nil _
  | _ => rfl

end Hierarchy

/-! ## Loaded projects -/

variable (parse : Text → Option Cst → Cst) (prepare : Text → Text → Text) (files : List FileRead)

/--
The export of a loaded project ends. Under each module its hierarchy has the lines of the module's
own list of instances and nothing below them.
-/
theorem exportSingle_loadFiles {nodes : List GraphNode}
    (hnodes : nodes ~ (ProjectState.loadFiles parse prepare files).graph.allNodes)
    (fileMap : List (Text × NodeId)) {fuel : Nat} (hfuel : 1 < fuel)
    : let state := ProjectState.loadFiles parse prepare files
      exportSingle state.graph state.symbols fileMap fuel nodes
          = some (document state.graph state.symbols fileMap nodes
              (nodes.flatMap (moduleLines state.graph state.symbols)))
        ∧ ∀ node, itemList "Instances".toList (instanceItems state.graph state.symbols node)
            <:+: renderModuleDetail state.graph state.symbols node := by
  intro state
  have h := ProjectState.loaded_foldl parse prepare files
  obtain ⟨log, hlog⟩ := h.reachable.logs
  exact ⟨exportSingle_of_conforms h.conforms hlog h.reachable.keyed hnodes fileMap hfuel,
    itemList_instances_infix state.graph state.symbols⟩

-- The instance is in a generate block, so it is not shown
theorem exportSingle_loadFiles_generated
    : let state := ProjectState.loadOrBuild ProjectState.parseGenerated [ProjectState.generatedFile]
      ∃ hierarchy, hierarchy.length = 1
        ∧ exportSingle state.graph state.symbols state.fileMap.toList 2 state.graph.allNodes
          = some (document state.graph state.symbols state.fileMap.toList
              state.graph.allNodes hierarchy) :=
  ⟨_, by decide +kernel,
    (exportSingle_loadFiles ProjectState.parseGenerated (fun source _ => source)
      [ProjectState.generatedFile] (.refl _) _
      (Nat.lt_succ_self 1)).1⟩

end MarkdownExporter
end HdlGraph
