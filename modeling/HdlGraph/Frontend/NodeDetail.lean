import HdlGraph.Frontend.FileOfNode
import HdlGraph.Frontend.Instances
import HdlGraph.Library.Chunks
import HdlGraph.Library.Unicode
import HdlGraph.Project.Declared
import HdlGraph.Project.Walks

/-!
This module contains the details of a node as both frontends report them. The code has the report
twice, with its own names for nodes and its own blank lines in each of the frontends.
-/

namespace HdlGraph

open scoped List

-- The kinds as `Debug` prints them
def PortDirection.debug : PortDirection → Text
  | .input => "Input".toList
  | .output => "Output".toList
  | .inout => "Inout".toList
  | .ref => "Ref".toList

def SignalKind.debug : SignalKind → Text
  | .wire => "Wire".toList
  | .reg => "Reg".toList
  | .logic => "Logic".toList
  | .integer => "Integer".toList
  | .bit => "Bit".toList

def TLMDirection.debug : TLMDirection → Text
  | .analysisPort => "AnalysisPort".toList
  | .analysisExport => "AnalysisExport".toList
  | .blocking => "Blocking".toList
  | .nonblocking => "Nonblocking".toList
  | .fifo => "Fifo".toList

namespace NodeDetail

/-! ## The lines of a report -/

structure Names where
  name : NodeKind InternedString → Option Text
  kindDisplayName : NodeKind InternedString → Text

def Names.nameOf (names : Names) (node : GraphNode) : Text :=
  (names.name node.kind).getD (idLabel node.id)

section Lines

variable (g : InMemoryGraph) (symbols : SymbolTable) (names : Names)

def quoted (node : GraphNode) : Text :=
  names.kindDisplayName node.kind ++ " `".toList ++ names.nameOf node ++ "`".toList

def kindLines : NodeKind InternedString → List Text
  | .modulePort _ direction => ["**Direction:** ".toList ++ direction.debug]
  | .signalDecl _ kind => ["**Signal type:** ".toList ++ kind.debug]
  | .moduleInstance _ moduleType =>
    ["**Instantiates:** `".toList ++ nameOr symbols moduleType ++ "`".toList]
  | .class _ (some parent) => ["**Extends:** `".toList ++ nameOr symbols parent ++ "`".toList]
  | .function _ isTask =>
    ["**Type:** ".toList ++ if isTask then "task".toList else "function".toList]
  | .method _ true => ["**Virtual:** yes".toList]
  | .tlmPort _ direction => ["**TLM Direction:** ".toList ++ direction.debug]
  | .factoryReg typeName baseType =>
    ["**Registers:** `".toList ++ nameOr symbols typeName ++ "` extends `".toList
      ++ nameOr symbols baseType ++ "`".toList]
  | .factoryOverride originalType overrideType =>
    ["**Override:** `".toList ++ nameOr symbols originalType ++ "` -> `".toList
      ++ nameOr symbols overrideType ++ "`".toList]
  | _ => []

def headerLines (file : Option Text) (node : GraphNode) : List Text :=
  ["# ".toList ++ quoted names node, [], "**Node ID:** ".toList ++ (Nat.repr node.id).toList]
    ++ ((node.scopeId.bind g.getNode).map fun parent =>
      "**Scope:** ".toList ++ quoted names parent).toList
    ++ (file.map fun file => "**File:** ".toList ++ file).toList
    ++ kindLines symbols node.kind

def outgoingLine (node : GraphNode) (edge : Edge) (target : GraphNode) : Text :=
  "  - ".toList ++ edge.edgeType.name ++ " `".toList ++ names.nameOf node ++ "` → ".toList
    ++ quoted names target

def incomingLine (node : GraphNode) (edge : Edge) (source : GraphNode) : Text :=
  "  - ".toList ++ quoted names source ++ " → ".toList ++ edge.edgeType.name ++ " `".toList
    ++ names.nameOf node ++ "`".toList

def outgoingLines (node : GraphNode) : List Text :=
  (g.getOutgoing node.id).filterMap fun edge =>
    (g.getNode edge.target).map (outgoingLine names node edge)

def incomingLines (node : GraphNode) : List Text :=
  ((g.getIncoming node.id).take 20).filterMap fun edge =>
    (g.getNode edge.source).map (incomingLine names node edge)

def outgoingSection (node : GraphNode) : List Text :=
  ["## Outgoing edges (".toList ++ (Nat.repr (g.getOutgoing node.id).length).toList ++ ")".toList,
    []]
    ++ outgoingLines g names node

def incomingSection (node : GraphNode) : List Text :=
  let count := (g.getIncoming node.id).length
  let suffix := if 20 < count then " of ".toList ++ (Nat.repr count).toList else []
  ["## Incoming edges (".toList ++ (Nat.repr (min count 20)).toList ++ suffix ++ ")".toList, []]
    ++ incomingLines g names node
    ++ if 20 < count then ["  ... and ".toList ++ (Nat.repr (count - 20)).toList ++ " more".toList]
      else []

-- A section without edges is left out
def sections (node : GraphNode) : List (List Text) :=
  (if (g.getOutgoing node.id).isEmpty then [] else [outgoingSection g names node])
    ++ if (g.getIncoming node.id).isEmpty then [] else [incomingSection g names node]

end Lines

inductive Answer where
  | notFound
  | detail (node : GraphNode)
  | several (nodes : List GraphNode)

-- An exact match goes before one that ignores case, of which the first one is taken
def answer (u : Unicode) (name : NodeKind InternedString → Option Text) (nodes : List GraphNode)
    (symbol : Text) : Answer :=
  match nodes.filter fun n => name n.kind = some symbol with
  | [] =>
    match nodes.filter fun n => (name n.kind).any fun s =>
      u.toLowercase s = u.toLowercase symbol with
    | [] => .notFound
    | first :: _ => .detail first
  | [node] => .detail node
  | candidates => .several candidates

end NodeDetail

open NodeDetail

/-! ## The commands -/

namespace CmdNode

variable (g : InMemoryGraph) (symbols : SymbolTable)

def names : Names where
  name kind := nodeNameFromKind kind symbols
  kindDisplayName := nodeKindStr

def printNodeDetail (fileMap : List (Text × NodeId)) (node : GraphNode) : Text :=
  (headerLines g symbols (names symbols) (Helpers.findFileForNode g fileMap node.id) node).flatMap
  println
    ++ (sections g (names symbols) node).flatMap fun lines => println [] ++ lines.flatMap println

def cmdNode (u : Unicode) (fileMap : List (Text × NodeId)) (nodes : List GraphNode) (symbol : Text)
    : Text :=
  match answer u (names symbols).name nodes symbol with
  | .notFound => println ("Symbol not found: ".toList ++ symbol)
  | .detail node => printNodeDetail g symbols fileMap node
  | .several candidates =>
    println ("Multiple definitions found for '".toList ++ symbol ++ "':".toList) ++ println []
      ++ candidates.zipIdx.flatMap fun (node, i) =>
          println ("## Match ".toList ++ (Nat.repr (i + 1)).toList) ++ println []
            ++ printNodeDetail g symbols fileMap node

end CmdNode

namespace NodeInfo

variable (g : InMemoryGraph) (symbols : SymbolTable)

def nodeNameStr : NodeKind InternedString → Option Text
  | .module name | .class name _ | .package name | .interface name | .function name
      _ | .signalDecl name _
  | .modulePort name _ | .moduleInstance name _ | .property name | .variableRef
      name | .callSite name
  | .method name _ | .tlmPort name _ | .parameter name | .sequenceDecl name | .propertyDecl
      name | .coverGroup name
  | .coverPoint name | .modport name | .dpiImport name | .configDBSet name | .configDBGet name =>
    symbols.resolve name
  | .factoryReg typeName _ => symbols.resolve typeName
  | .factoryCreate typeName => symbols.resolve typeName
  | .factoryOverride originalType _ => symbols.resolve originalType
  | _ => none

def kindDisplayName : NodeKind InternedString → Text
  | .propertyDecl _ => "property".toList
  | kind => nodeKindStr kind

def names : Names where
  name := nodeNameStr symbols
  kindDisplayName := kindDisplayName

def formatNodeDetail (fileMap : List (Text × NodeId)) (node : GraphNode) : Text :=
  (headerLines g symbols (names symbols) (findFileForNode g fileMap node.id) node).flatMap
  println ++ println []
    ++ (sections g (names symbols) node).flatMap fun lines => lines.flatMap println ++ println []

def run (u : Unicode) (fileMap : List (Text × NodeId)) (nodes : List GraphNode) (symbol : Text)
    : Text :=
  match answer u (names symbols).name nodes symbol with
  | .notFound => "Symbol not found: ".toList ++ symbol
  | .detail node => formatNodeDetail g symbols fileMap node
  | .several candidates =>
    println ("Multiple definitions found for '".toList ++ symbol ++ "':".toList) ++ println []
      ++ candidates.zipIdx.flatMap fun (node, i) =>
          println ("## Match ".toList ++ (Nat.repr (i + 1)).toList) ++ println []
            ++ formatNodeDetail g symbols fileMap node
            ++ println []

end NodeInfo

namespace NodeDetail

/-! ## Both reports -/

def namedAlike : NodeKind ν → Bool
  | .configBlock _ | .propertyDecl _ => false
  | _ => true

inductive Seen (g : InMemoryGraph) (node : GraphNode) : GraphNode → Prop where
  | self : Seen g node node
  | scope {parent : GraphNode} (hparent : node.scopeId.bind g.getNode = some parent) :
      Seen g node parent
  | target {e : Edge} (he : e ∈ g.getOutgoing node.id) {target : GraphNode}
      (htarget : g.getNode e.target = some target) :
      Seen g node target
  | source {e : Edge} (he : e ∈ g.getIncoming node.id) {source : GraphNode}
      (hsource : g.getNode e.source = some source) :
      Seen g node source

/--
The report leaves nothing out: an edge to the node stands in it and in the report about the other
end.
-/
structure Complete (g : InMemoryGraph) (names : Names) (node : GraphNode) : Prop where
  outgoing : (outgoingLines g names node).length = (g.getOutgoing node.id).length
  incoming : (g.getIncoming node.id).length ≤ 20
  listed : ∀ e ∈ g.getIncoming node.id, ∀ source, g.getNode e.source = some source →
    incomingLine names node e source ∈ incomingLines g names node
      ∧ outgoingLine names source e node ∈ outgoingLines g names source

section Alike

variable {g : InMemoryGraph} {symbols : SymbolTable}

theorem name_eq {kind : NodeKind InternedString} (h : ∀ name, kind ≠ .configBlock name)
    : (NodeInfo.names symbols).name kind = (CmdNode.names symbols).name kind := by
  cases kind with
  | configBlock name => exact absurd rfl (h name)
  | _ => rfl

theorem nameOf_eq {node : GraphNode} (h : namedAlike node.kind)
    : (NodeInfo.names symbols).nameOf node = (CmdNode.names symbols).nameOf node := by
  rw [Names.nameOf, Names.nameOf, name_eq]
  intro name hkind
  rw [hkind] at h
  exact Bool.false_ne_true h

theorem kindDisplayName_eq {kind : NodeKind InternedString} (h : namedAlike kind)
    : (NodeInfo.names symbols).kindDisplayName kind
        = (CmdNode.names symbols).kindDisplayName kind := by
  cases kind with
  | propertyDecl name => exact absurd h Bool.false_ne_true
  | _ => rfl

theorem quoted_eq {node : GraphNode} (h : namedAlike node.kind)
    : quoted (NodeInfo.names symbols) node = quoted (CmdNode.names symbols) node := by
  simp only [quoted, nameOf_eq h, kindDisplayName_eq h]

variable {node : GraphNode} (h : ∀ other, Seen g node other → namedAlike other.kind)

include h

theorem headerLines_eq (file : Option Text)
    : headerLines g symbols (NodeInfo.names symbols) file node
        = headerLines g symbols (CmdNode.names symbols) file node := by
  rw [headerLines, headerLines, quoted_eq (h node .self)]
  cases hparent : node.scopeId.bind g.getNode with
  | none => rw [Option.map_none, Option.map_none]
  | some parent => rw [Option.map_some, Option.map_some, quoted_eq (h parent (.scope hparent))]

theorem outgoingSection_eq
    : outgoingSection g (NodeInfo.names symbols) node
        = outgoingSection g (CmdNode.names symbols) node := by
  have hlines : outgoingLines g (NodeInfo.names symbols) node
      = outgoingLines g (CmdNode.names symbols) node := by
    apply List.filterMap_congr
    intro e he
    cases htarget : g.getNode e.target with
    | none => rw [Option.map_none, Option.map_none]
    | some target =>
      rw [Option.map_some, Option.map_some]
      unfold outgoingLine
      rw [nameOf_eq (h node .self), quoted_eq (h target (.target he htarget))]
  simp only [outgoingSection, hlines]

theorem incomingSection_eq
    : incomingSection g (NodeInfo.names symbols) node
        = incomingSection g (CmdNode.names symbols) node := by
  have hlines : incomingLines g (NodeInfo.names symbols) node
      = incomingLines g (CmdNode.names symbols) node := by
    apply List.filterMap_congr
    intro e he
    cases hsource : g.getNode e.source with
    | none => rw [Option.map_none, Option.map_none]
    | some source =>
      rw [Option.map_some, Option.map_some]
      unfold incomingLine
      rw [nameOf_eq (h node .self),
        quoted_eq (h source (.source (List.mem_of_mem_take he) hsource))]
  simp only [incomingSection, hlines]

theorem sections_eq
    : sections g (NodeInfo.names symbols) node = sections g (CmdNode.names symbols) node := by
  rw [sections, sections, outgoingSection_eq h, incomingSection_eq h]

theorem formatNodeDetail_eq {fileMap fileMap' : List (Text × NodeId)}
    (hfile : NodeInfo.findFileForNode g fileMap' node.id
      = Helpers.findFileForNode g fileMap node.id)
    : NodeInfo.formatNodeDetail g symbols fileMap' node
        = CmdNode.printNodeDetail g symbols fileMap node ++ println [] := by
  rw [NodeInfo.formatNodeDetail, CmdNode.printNodeDetail, headerLines_eq h, sections_eq h, hfile,
    List.append_assoc, Chunks.append_flatMap_append, List.append_assoc]

end Alike

theorem answer_eq {symbols : SymbolTable} {nodes : List GraphNode}
    (h : ∀ node ∈ nodes, ∀ name, node.kind ≠ .configBlock name) (u : Unicode) (symbol : Text)
    : answer u (NodeInfo.names symbols).name nodes symbol
        = answer u (CmdNode.names symbols).name nodes symbol := by
  have hfilter : ∀ p : Option Text → Bool,
      nodes.filter (fun n => p ((NodeInfo.names symbols).name n.kind))
      = nodes.filter fun n => p ((CmdNode.names symbols).name n.kind) := by
    intro p
    apply List.filter_congr
    intro node hnode
    rw [name_eq (h node hnode)]
  rw [answer, answer, hfilter fun name => name = some symbol, hfilter fun name => name.any _]

end NodeDetail

namespace ProjectState

variable {parse : Text → Option Cst → Cst} {prepare : Text → Text → Text} {files : List FileRead}
variable {st : InMemoryGraph × GraphExtractor × Dict Text NodeId}

theorem Loaded.complete (h : Loaded parse prepare files st) (names : Names) {node : GraphNode}
    (hnode : node ∈ st.1.allNodes)
    : Complete st.1 names node where
  outgoing := by
    rw [outgoingLines, List.length_filterMap_eq_countP, List.countP_eq_length]
    intro e he
    obtain ⟨target, htarget⟩ := h.target_stored (h.reachable.mem_getOutgoing.mp he).1
    rw [htarget]
    rfl
  incoming := h.length_getIncoming_le.trans (by decide)
  listed := by
    intro e he source hsource
    have hnone : (st.1.getIncoming node.id).take 20 = st.1.getIncoming node.id :=
      List.take_of_length_le (h.length_getIncoming_le.trans (by decide))
    have ⟨hmem, htarget⟩ := h.reachable.mem_getIncoming.mp he
    have hid := (h.reachable.keyed.getNode_eq_some_iff.mp hsource).2
    have hget : st.1.getNode e.target = some node :=
      h.reachable.keyed.getNode_eq_some_iff.mpr ⟨hnode, htarget.symm⟩
    constructor
    . rw [incomingLines, hnone]
      exact List.mem_filterMap.mpr ⟨e, he, by rw [hsource, Option.map_some]⟩
    . refine List.mem_filterMap.mpr ⟨e, h.reachable.mem_getOutgoing.mpr ⟨hmem, hid.symm⟩, ?_⟩
      rw [hget, Option.map_some]

end ProjectState

namespace NodeDetail

/--
In a loaded project the reports about all nodes are complete. Where nothing comes up that is called
by other names, both frontends write the same report, up to a blank line at the end, and they choose
the same nodes.
-/
theorem reports_loadFiles (parse : Text → Option Cst → Cst) (prepare : Text → Text → Text)
    (files : List FileRead)
    : let state := ProjectState.loadFiles parse prepare files
      (∀ node ∈ state.graph.allNodes, ∀ names, Complete state.graph names node)
        ∧ (∀ fileMap fileMap', fileMap ~ state.fileMap.toList → fileMap' ~ state.fileMap.toList →
          ∀ node, (∀ other, Seen state.graph node other → namedAlike other.kind) →
            NodeInfo.formatNodeDetail state.graph state.symbols fileMap' node
              = CmdNode.printNodeDetail state.graph state.symbols fileMap node ++ ['\n'])
        ∧ ((∀ node ∈ state.graph.allNodes, ∀ name, node.kind ≠ .configBlock name) →
          ∀ nodes, nodes ~ state.graph.allNodes → ∀ u symbol,
            answer u (NodeInfo.names state.symbols).name nodes symbol
              = answer u (CmdNode.names state.symbols).name nodes symbol) := by
  intro state
  have h := ProjectState.loaded_foldl parse prepare files
  refine ⟨?_, ?_, ?_⟩
  . intro node hnode names
    exact h.complete names hnode
  . intro fileMap fileMap' hfileMap hfileMap' node hseen
    exact formatNodeDetail_eq hseen (h.findFileWithin_eq hfileMap' hfileMap 3 node.id)
  . intro hkinds nodes hnodes u symbol
    exact answer_eq (fun node hnode => hkinds node (hnodes.mem_iff.mp hnode)) u symbol

theorem reports_loadFiles_generated
    : let state :=
      ProjectState.loadFiles ProjectState.parseGenerated (fun source _ => source)
        [ProjectState.generatedFile]
      ∀ node ∈ state.graph.allNodes,
        NodeInfo.formatNodeDetail state.graph state.symbols state.fileMap.toList node
        = CmdNode.printNodeDetail state.graph state.symbols state.fileMap.toList node
          ++ ['\n'] := by
  intro state node hnode
  have hreports :=
    reports_loadFiles ProjectState.parseGenerated (fun source _ => source)
      [ProjectState.generatedFile]
  apply hreports.2.1 _ _ (.refl _) (.refl _)
  have hkinds : ∀ node ∈ state.graph.allNodes, namedAlike node.kind = true := by decide +kernel
  have hstored : ∀ id other, state.graph.getNode id = some other →
      namedAlike other.kind = true := by
    intro id other hother
    have h :=
      ProjectState.loaded_foldl ProjectState.parseGenerated (fun source _ => source)
        [ProjectState.generatedFile]
    exact hkinds other (h.reachable.keyed.getNode_eq_some_iff.mp hother).1
  intro other hseen
  cases hseen with
  | self => exact hkinds _ hnode
  | scope hparent =>
    obtain ⟨id, _, hid⟩ := Option.bind_eq_some_iff.mp hparent
    exact hstored id other hid
  | target he htarget => exact hstored _ other htarget
  | source he hsource => exact hstored _ other hsource

end NodeDetail
end HdlGraph
