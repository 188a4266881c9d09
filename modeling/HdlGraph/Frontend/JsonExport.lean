import HdlGraph.Frontend.Check
import HdlGraph.Frontend.FileOfNode
import HdlGraph.Frontend.Instances
import HdlGraph.Project.Declared

/-!
This module contains the export to JSON as a whole, and how the graph is read back from it.
-/

namespace HdlGraph

open scoped List

namespace JsonExporter

/-! ## What is written -/

def nodeNameStr (resolve : ν → Option Text) : NodeKind ν → Option Text
  | .module name | .class name _ | .package name | .interface name | .function name
      _ | .signalDecl name _
  | .modulePort name _ | .moduleInstance name _ | .property name | .variableRef
      name | .callSite name
  | .method name _ | .tlmPort name _ | .sequenceDecl name | .propertyDecl name | .coverGroup
      name | .coverPoint name
  | .modport name | .dpiImport name | .configDBSet name | .configDBGet name => resolve name
  | .factoryReg typeName _ => resolve typeName
  | .factoryCreate typeName => resolve typeName
  | .factoryOverride originalType _ => resolve originalType
  | _ => none

def nodeKindStr : NodeKind ν → Text
  | .sourceFile => "SourceFile".toList
  | .module _ => "Module".toList
  | .modulePort _ _ => "ModulePort".toList
  | .moduleInstance _ _ => "ModuleInstance".toList
  | .portConnection _ _ => "PortConnection".toList
  | .generateBlock _ => "GenerateBlock".toList
  | .alwaysBlock _ => "AlwaysBlock".toList
  | .signalDecl _ _ => "SignalDecl".toList
  | .assignment => "Assignment".toList
  | .function _ _ => "Function".toList
  | .beginBlock _ => "BeginBlock".toList
  | .variableRef _ => "VariableRef".toList
  | .callSite _ => "CallSite".toList
  | .class _ _ => "Class".toList
  | .method _ _ => "Method".toList
  | .property _ => "Property".toList
  | .package _ => "Package".toList
  | .packageImport _ => "PackageImport".toList
  | .interface _ => "Interface".toList
  | .modport _ => "Modport".toList
  | .factoryReg _ _ => "FactoryReg".toList
  | .factoryCreate _ => "FactoryCreate".toList
  | .factoryOverride _ _ => "FactoryOverride".toList
  | .tlmPort _ _ => "TLMPort".toList
  | .tlmBinding => "TLMBinding".toList
  | .configDBSet _ => "ConfigDBSet".toList
  | .configDBGet _ => "ConfigDBGet".toList
  | .assertProperty => "AssertProperty".toList
  | .sequenceDecl _ => "SequenceDecl".toList
  | .propertyDecl _ => "PropertyDecl".toList
  | .coverGroup _ => "CoverGroup".toList
  | .coverPoint _ => "CoverPoint".toList
  | .dpiImport _ => "DPIImport".toList
  | .bindDirective _ => "BindDirective".toList
  | .configBlock _ => "ConfigBlock".toList
  | .parameter _ => "Parameter".toList

-- An object of the `nodes` array, in which the last three fields may be missing
structure NodeValue where
  id : NodeId
  kind : Text
  name : Option Text
  file : Option Text
  scopeId : Option NodeId
  deriving DecidableEq, Repr

structure Metadata where
  tool : Text
  version : Text
  exportedAt : Text

structure Exported where
  metadata : Metadata
  nodes : List NodeValue
  edges : List EdgeValue
  files : List Text

section Export

variable (g : InMemoryGraph) (symbols : SymbolTable) (fileMap : List (Text × NodeId))

def nodeValue (node : GraphNode) : NodeValue where
  id := node.id
  kind := nodeKindStr node.kind
  name := nodeNameStr symbols.resolve node.kind
  file := findFileForNode g fileMap node.id
  scopeId := node.scopeId

def exportGraph (version exportedAt : Text) (nodes : List GraphNode) : Exported where
  metadata := ⟨"hdl-graph".toList, version, exportedAt⟩
  nodes := nodes.map (nodeValue g symbols fileMap)
  edges := exportEdges g nodes
  files := fileMap.map Prod.fst

end Export

/-! ## What is read back -/

def edgeTypes : List EdgeType := [
  .contains, .defines, .references, .imports, .extends, .instantiates, .connects, .drives,
  .triggers, .calls, .overrides,
  .macroExpands, .factoryRegisters, .factoryOverrides, .tlmBinds, .configSets, .configGets,
  .configResolves
]

def edgeTypeOf (name : Text) : Option EdgeType := edgeTypes.find? (·.name = name)

def readEdge (value : EdgeValue) : Option Edge :=
  (edgeTypeOf value.type).map fun t => ⟨value.source, value.target, t⟩

def readBack (exported : Exported) : Option InMemoryGraph :=
  (exported.edges.mapM readEdge).map fun edges => edges.foldl InMemoryGraph.addEdge .new

theorem edgeTypeOf_name (t : EdgeType) : edgeTypeOf t.name = some t := by cases t <;> decide

theorem readEdge_edgeValue (e : Edge) : readEdge (edgeValue e) = some e := by
  rw [readEdge, edgeValue, edgeTypeOf_name]
  rfl

theorem mapM_readEdge (edges : List Edge) : (edges.map edgeValue).mapM readEdge = some edges := by
  induction edges with
  | nil => rfl
  | cons e rest ih => rw [List.map_cons, List.mapM_cons, readEdge_edgeValue, ih]; rfl

theorem logs_foldl_addEdge {g : InMemoryGraph} {log : List Edge} (h : g.Logs log)
    (edges : List Edge)
    : (edges.foldl InMemoryGraph.addEdge g).Logs (log ++ edges) := by
  induction edges generalizing g log with
  | nil => rwa [List.append_nil]
  | cons e rest ih =>
    have hnext := ih (h.addEdge e)
    rwa [List.append_assoc] at hnext

/--
The graph that is read back has the edges of the stored nodes, in the same order at each of them.
-/
structure ReadsBack (g : InMemoryGraph) (exported : Exported) : Prop where
  read : ∃ g', readBack exported = some g'
    ∧ (∀ id, g'.getOutgoing id = if (g.getNode id).isSome then g.getOutgoing id else [])
    ∧ (∀ id, g'.getIncoming id ~ (g.getIncoming id).filter fun e => (g.getNode e.source).isSome)
  ids : exported.nodes.map NodeValue.id ~ g.allNodes.map GraphNode.id
  nodup : (exported.nodes.map NodeValue.id).Nodup

theorem filter_edgesOfNodes {g : InMemoryGraph} {nodes : List GraphNode} {log : List Edge}
    (hlog : g.Logs log) (hnodup : (nodes.map GraphNode.id).Nodup) (id : NodeId)
    : (edgesOfNodes g nodes).filter (fun e => e.source = id) = if id ∈ nodes.map GraphNode.id
        then g.getOutgoing id else [] := by
  have hown : ∀ id', (g.getOutgoing id').filter (fun e => e.source = id) = if id'
      = id then g.getOutgoing id else [] := by
    intro id'
    split
    . next heq =>
      subst heq
      rw [List.filter_eq_self]
      exact fun e he => decide_eq_true (hlog.mem_getOutgoing.mp he).2
    . next hne =>
      rw [List.filter_eq_nil_iff]
      intro e he hsource
      exact hne ((hlog.mem_getOutgoing.mp he).2.symm.trans (of_decide_eq_true hsource))
  induction nodes with
  | nil => rfl
  | cons node rest ih =>
    rw [List.map_cons, List.nodup_cons] at hnodup
    have hrest := ih hnodup.2
    rw [edgesOfNodes, List.flatMap_cons, List.filter_append, hown]
    rw [edgesOfNodes] at hrest
    rw [hrest]
    by_cases hid : node.id = id
    . rw [hid] at hnodup
      simp [hid, hnodup.1]
    . simp [hid, Ne.symm hid]

theorem readBack_exportGraph (g : InMemoryGraph) (symbols : SymbolTable)
    (fileMap : List (Text × NodeId)) (version exportedAt : Text) (nodes : List GraphNode)
    : readBack (exportGraph g symbols fileMap version exportedAt nodes)
        = some ((edgesOfNodes g nodes).foldl InMemoryGraph.addEdge .new) := by
  have hedges : (exportGraph g symbols fileMap version exportedAt nodes).edges
      = (edgesOfNodes g nodes).map edgeValue :=
    exportEdges_eq g nodes
  rw [readBack, hedges, mapM_readEdge, Option.map_some]

theorem map_id_exportGraph (g : InMemoryGraph) (symbols : SymbolTable)
    (fileMap : List (Text × NodeId)) (version exportedAt : Text) (nodes : List GraphNode)
    : (exportGraph g symbols fileMap version exportedAt nodes).nodes.map NodeValue.id
        = nodes.map GraphNode.id :=
  List.map_map

theorem readsBack_exportGraph {g : InMemoryGraph} (h : g.Reachable) {nodes : List GraphNode}
    (hnodes : nodes ~ g.allNodes) (symbols : SymbolTable) (fileMap : List (Text × NodeId))
    (version exportedAt : Text)
    : ReadsBack g (exportGraph g symbols fileMap version exportedAt nodes) := by
  obtain ⟨log, hlog⟩ := h.logs
  have hids := map_id_exportGraph g symbols fileMap version exportedAt nodes
  have hnodup : (nodes.map GraphNode.id).Nodup :=
    (hnodes.map GraphNode.id).nodup_iff.mpr h.keyed.ids_nodup
  have hlogs := logs_foldl_addEdge InMemoryGraph.Logs.new (edgesOfNodes g nodes)
  rw [List.nil_append] at hlogs
  refine ⟨⟨_, readBack_exportGraph _ _ _ _ _ _, ?_, ?_⟩, ?_, ?_⟩
  . intro id
    rw [hlogs.getOutgoing_eq, filter_edgesOfNodes hlog hnodup]
    simp only [mem_map_id_iff h.keyed hnodes]
  . intro id
    rw [hlogs.getIncoming_eq, hlog.getIncoming_eq]
    refine ((perm_edgesOfNodes h.keyed hlog hnodes).filter _).trans (.of_eq ?_)
    rw [List.filter_comm]
  . rw [hids]
    exact hnodes.map _
  . rw [hids]
    exact hnodup

/-! ## Loaded projects -/

/--
Every edge leads from one exported node to another, and the nodes are called what the files declare.
-/
structure SelfContained (kinds : List (NodeKind Text)) (exported : Exported) : Prop where
  edges : ∀ e ∈ exported.edges, e.source ∈ exported.nodes.map NodeValue.id
    ∧ e.target ∈ exported.nodes.map NodeValue.id
  nodes : exported.nodes.map (fun node => (node.kind, node.name))
    ~ kinds.map fun kind => (nodeKindStr kind, nodeNameStr some kind)

theorem nodeNameStr_of_resolve {symbols : SymbolTable} {kind : NodeKind InternedString}
    {named : NodeKind Text} (h : kind.resolve symbols = some named)
    : nodeNameStr symbols.resolve kind = nodeNameStr some named := by
  cases NodeKind.says_of_resolve h <;> simp [nodeNameStr, *]

theorem nodeKindStr_of_resolve {symbols : SymbolTable} {kind : NodeKind InternedString}
    {named : NodeKind Text} (h : kind.resolve symbols = some named)
    : nodeKindStr kind = nodeKindStr named := by
  cases NodeKind.says_of_resolve h <;> rfl

theorem perm_kinds_names {parse : Text → Option Cst → Cst} {prepare : Text → Text → Text}
    {files : List FileRead} {st : InMemoryGraph × GraphExtractor × Dict Text NodeId}
    (h : ProjectState.Loaded parse prepare files st)
    : st.1.allNodes.map
          (fun node => (nodeKindStr node.kind, nodeNameStr st.2.1.symbols.resolve node.kind))
        ~ (ProjectState.declaredKinds parse prepare files).map fun kind =>
          (nodeKindStr kind, nodeNameStr some kind) := by
  have hcalled : ∀ kind named, kind.resolve st.2.1.symbols = some named →
      some (nodeKindStr kind, nodeNameStr st.2.1.symbols.resolve kind)
        = some (nodeKindStr named, nodeNameStr some named) := by
    intro kind named hresolve
    rw [nodeKindStr_of_resolve hresolve, nodeNameStr_of_resolve hresolve]
  have hkinds := h.perm_filterMap_kinds hcalled
  rwa [List.filterMap_eq_map', List.filterMap_eq_map'] at hkinds

variable (parse : Text → Option Cst → Cst) (prepare : Text → Text → Text) (files : List FileRead)

/--
The export of a loaded project needs nothing else to be read: all ends of its edges are in it, every
node has the kind and the name that its file gives it, and the edges that leave an exported node are
read back as they were.
-/
theorem export_loadFiles {nodes : List GraphNode}
    (hnodes : nodes ~ (ProjectState.loadFiles parse prepare files).graph.allNodes)
    (fileMap : List (Text × NodeId)) (version exportedAt : Text)
    : let state := ProjectState.loadFiles parse prepare files
      let exported := exportGraph state.graph state.symbols fileMap version exportedAt nodes
      ReadsBack state.graph exported
        ∧ SelfContained (ProjectState.declaredKinds parse prepare files) exported := by
  intro state exported
  have h := ProjectState.loaded_foldl parse prepare files
  have hreads : ReadsBack state.graph exported :=
    readsBack_exportGraph h.reachable hnodes state.symbols fileMap version exportedAt
  refine ⟨hreads, ?_, ?_⟩
  . obtain ⟨log, hlog⟩ := h.reachable.logs
    intro value hvalue
    rw [map_id_exportGraph]
    obtain ⟨node, hnode, hvalue⟩ := List.mem_flatMap.mp hvalue
    obtain ⟨e, he, rfl⟩ := List.mem_map.mp hvalue
    have ⟨hmem, hsource⟩ := hlog.mem_getOutgoing.mp he
    obtain ⟨target, htarget⟩ := h.target_stored (hlog.perm_allEdges.mem_iff.mpr hmem)
    constructor
    . change e.source ∈ nodes.map GraphNode.id
      exact hsource ▸ List.mem_map_of_mem hnode
    . change e.target ∈ nodes.map GraphNode.id
      rw [mem_map_id_iff h.reachable.keyed hnodes, htarget]
      rfl
  . have hvalues : exported.nodes.map (fun node => (node.kind, node.name))
        = nodes.map fun node =>
          (nodeKindStr node.kind, nodeNameStr state.symbols.resolve node.kind) :=
      List.map_map
    rw [hvalues]
    exact (hnodes.map _).trans (perm_kinds_names h)

theorem export_loadFiles_generated
    : let state := ProjectState.loadOrBuild ProjectState.parseGenerated [ProjectState.generatedFile]
      ReadsBack state.graph
        (exportGraph state.graph state.symbols state.fileMap.toList "0.2.0".toList "0".toList
          state.graph.allNodes) :=
  (export_loadFiles ProjectState.parseGenerated (fun source _ => source)
    [ProjectState.generatedFile] (.refl _) _ _ _).1

end JsonExporter
end HdlGraph
