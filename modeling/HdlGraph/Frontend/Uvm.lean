import HdlGraph.Core.Helpers
import HdlGraph.Frontend.Impact
import HdlGraph.Library.Text
import HdlGraph.Project.TwoLevels
import HdlGraph.Project.Walks

/-!
This module contains the queries for UVM records. The command line looks for them right below the
items of the files, the tool server goes over all nodes.
-/

namespace HdlGraph

open scoped List
open Blocks Text

inductive UvmRecord where
  | factoryReg (typeName baseType : Text)
  | factoryCreate (typeName : Text)
  | factoryOverride (originalType overrideType : Text)
  | configDBSet (field : Text)
  | configDBGet (field : Text)
  | tlmPort (name : Text) (direction : TLMDirection)
  deriving DecidableEq, Repr

def NodeKind.uvmRecord (read : ν → Text) : NodeKind ν → Option UvmRecord
  | .factoryReg typeName baseType => some (.factoryReg (read typeName) (read baseType))
  | .factoryCreate typeName => some (.factoryCreate (read typeName))
  | .factoryOverride originalType overrideType =>
    some (.factoryOverride (read originalType) (read overrideType))
  | .configDBSet field => some (.configDBSet (read field))
  | .configDBGet field => some (.configDBGet (read field))
  | .tlmPort name direction => some (.tlmPort (read name) direction)
  | _ => none

namespace UvmRecord

def inFactory (typeName : Text) : UvmRecord → Bool
  | factoryReg tn bt => tn = typeName || bt = typeName
  | factoryCreate tn => tn = typeName
  | factoryOverride ot ov => ot = typeName || ov = typeName
  | _ => false

def inConfig (path : Text) : UvmRecord → Bool
  | configDBSet field | configDBGet field => contains field path
  | _ => false

def isPort : UvmRecord → Bool
  | tlmPort _ _ => true
  | _ => false

def isPortOf (component : Text) : UvmRecord → Bool
  | tlmPort name _ => name = component
  | _ => false

def isFactory : UvmRecord → Bool
  | factoryReg _ _ | factoryCreate _ | factoryOverride _ _ => true
  | _ => false

def isConfig : UvmRecord → Bool
  | configDBSet _ | configDBGet _ => true
  | _ => false

end UvmRecord

structure UvmHit where
  node : NodeId
  record : UvmRecord
  notes : List Text
  deriving DecidableEq, Repr

def UvmHit.key (hit : UvmHit) : NodeId × UvmRecord := (hit.node, hit.record)

/-! ## The queries -/

section Queries

variable (g : InMemoryGraph) (symbols : SymbolTable)

def recordOf (node : GraphNode) : Option UvmRecord := node.kind.uvmRecord (nameOr symbols)

def connections (nodeId : NodeId) : List Text :=
  (g.getOutgoing nodeId).filterMap fun conn =>
    if conn.edgeType = .tlmBinds then
      match (g.getNode conn.target).map GraphNode.kind with
      | some (.tlmPort tn _) => some (nameOr symbols tn)
      | _ => none
    else
      none

namespace CmdUvm

-- The loops of the three commands
def hitsBelow (wanted : UvmRecord → Bool) (notes : GraphNode → GraphNode → List Text)
    (fileMap : List (Text × NodeId))
    : List UvmHit :=
  g.visitTwoLevels (fun _ _ _ => [])
    (fun _ node _ child => ((recordOf symbols child).filter wanted).toList.map fun record =>
      ⟨child.id, record, notes node child⟩)
    fileMap

def factoryHits (fileMap : List (Text × NodeId)) (typeName : Text) : List UvmHit :=
  hitsBelow g symbols (·.inFactory typeName) (fun _ _ => []) fileMap

-- The component is in the headline only
def tlmHits (fileMap : List (Text × NodeId)) (_component : Text) : List UvmHit :=
  hitsBelow g symbols (·.isPort) (fun _ child => connections g symbols child.id) fileMap

def configHits (fileMap : List (Text × NodeId)) (path : Text) : List UvmHit :=
  hitsBelow g symbols (fun record => record.inConfig path || record.isConfig && path = "*".toList)
    (fun node _ => [InMemoryGraph.nodeLabel symbols node.kind]) fileMap

def lines (hit : UvmHit) : List Text :=
  match hit.record with
  | .factoryReg tn bt => ["  Registration: ".toList ++ tn ++ " extends ".toList ++ bt]
  | .factoryCreate tn => ["  Create: type_id::create(\"".toList ++ tn ++ "\")".toList]
  | .factoryOverride ot ov => ["  Override: ".toList ++ ot ++ " → ".toList ++ ov]
  | .configDBSet field =>
    ["  SET   ".toList ++ field ++ "  (in ".toList ++ hit.notes.flatten ++ ")".toList]
  | .configDBGet field =>
    ["  GET   ".toList ++ field ++ "  (in ".toList ++ hit.notes.flatten ++ ")".toList]
  | .tlmPort name direction =>
    ("  Port: ".toList ++ name ++ " (".toList ++ direction.name ++ ")".toList)
      :: hit.notes.map fun tn => "    → connected to: ".toList ++ tn

def text (headline none : Text) (hits : List UvmHit) : Text :=
  println headline ++ (hits.flatMap fun hit => (lines hit).flatMap println) ++ if hits.isEmpty
    then println none else []

def cmdUvmFactory (fileMap : List (Text × NodeId)) (typeName : Text) : Text :=
  text ("UVM Factory: ".toList ++ typeName)
    ("  (no factory info found for '".toList ++ typeName ++ "')".toList)
    (factoryHits g symbols fileMap typeName)

def cmdUvmTlm (fileMap : List (Text × NodeId)) (component : Text) : Text :=
  text ("TLM Connections for: ".toList ++ component)
    ("  (no TLM ports found for '".toList ++ component ++ "')".toList)
    (tlmHits g symbols fileMap component)

def cmdUvmConfig (fileMap : List (Text × NodeId)) (path : Text) : Text :=
  text ("Config DB operations matching: ".toList ++ path)
    ("  (no config DB operations matching '".toList ++ path ++ "')".toList)
    (configHits g symbols fileMap path)

end CmdUvm

namespace UvmTool

-- The `continue` for a parent of another kind is that of the loop over the edges: the search goes
-- no further up
def findParentName (nodeId : NodeId) : Text :=
  let parentName? := (g.getIncoming nodeId).findSome? fun edge =>
    if edge.edgeType = .contains then
      match (g.getNode edge.source).map GraphNode.kind with
      | some (.class name _) => some ("class ".toList ++ nameOr symbols name)
      | some (.module name) => some ("module ".toList ++ nameOr symbols name)
      | _ => none
    else
      none
  parentName?.getD "unknown".toList

def parentClassName (nodeId : NodeId) : Text :=
  let parentName := findParentName g symbols nodeId
  (stripPrefix? "class ".toList parentName).getD parentName

-- The loops of the three analyses; `nodes` in the order in which the map happens to give them
def hitsAmong (wanted : GraphNode → UvmRecord → Bool) (notes : GraphNode → List Text)
    (nodes : List GraphNode)
    : List UvmHit :=
  nodes.filterMap fun node => ((recordOf symbols node).filter (wanted node)).map fun record =>
    ⟨node.id, record, notes node⟩

def isReg : UvmRecord → Bool
  | .factoryReg _ _ => true
  | _ => false

def factoryHits (nodes : List GraphNode) (typeName : Text) : List UvmHit :=
  hitsAmong symbols
    (fun node record => record.isFactory && typeName = "*".toList || record.inFactory typeName
      || isReg record && parentClassName g symbols node.id = typeName)
    (fun _ => []) nodes

def tlmHits (nodes : List GraphNode) (component : Text) : List UvmHit :=
  hitsAmong symbols
    (fun _ record => record.isPort && component = "*".toList || record.isPortOf component)
    (fun node => connections g symbols node.id) nodes

def configHits (nodes : List GraphNode) (path : Text) : List UvmHit :=
  hitsAmong symbols (fun _ record => record.isConfig && path = "*".toList || record.inConfig path)
    (fun node => [findParentName g symbols node.id]) nodes

def lines (hit : UvmHit) : List Text :=
  match hit.record with
  | .factoryReg tn bt => ["  Registration: ".toList ++ tn ++ " extends ".toList ++ bt]
  | .factoryCreate tn => ["  Create: type_id::create(\"".toList ++ tn ++ "\")".toList]
  | .factoryOverride ot ov => ["  Override: ".toList ++ ot ++ " -> ".toList ++ ov]
  | .configDBSet field =>
    ["  SET: ".toList ++ field ++ " (in ".toList ++ hit.notes.flatten ++ ")".toList]
  | .configDBGet field =>
    ["  GET: ".toList ++ field ++ " (in ".toList ++ hit.notes.flatten ++ ")".toList]
  | .tlmPort name direction =>
    ("  Port: ".toList ++ name ++ " (".toList ++ direction.name ++ ")".toList)
      :: hit.notes.map fun tn => "    -> connected to: ".toList ++ tn

def text (headline none : Text) (hits : List UvmHit) : Text :=
  if hits.isEmpty then none else println headline ++ hits.flatMap fun hit =>
    (lines hit).flatMap println

def uvmFactory (nodes : List GraphNode) (typeName : Text) : Text :=
  text ("UVM Factory (".toList ++ typeName ++ ")".toList)
    ("No factory info found for '".toList ++ typeName ++ "'".toList)
    (factoryHits g symbols nodes typeName)

def uvmTlm (nodes : List GraphNode) (component : Text) : Text :=
  text ("TLM Connections (".toList ++ component ++ ")".toList)
    ("No TLM connections found for '".toList ++ component ++ "'".toList)
    (tlmHits g symbols nodes component)

def uvmConfig (nodes : List GraphNode) (path : Text) : Text :=
  text ("ConfigDB (".toList ++ path ++ ")".toList)
    ("No config_db entries found for '".toList ++ path ++ "'".toList)
    (configHits g symbols nodes path)

end UvmTool

/-! ## What is to be reported -/

def recordsOf (wanted : UvmRecord → Bool) : List (NodeId × UvmRecord) :=
  g.allNodes.filterMap fun node => ((recordOf symbols node).filter wanted).map fun record =>
    (node.id, record)

/-- Each wanted record is reported once, and nothing else is. -/
def Reports (wanted : UvmRecord → Bool) (hits : List UvmHit) : Prop :=
  hits.map UvmHit.key ~ recordsOf g symbols wanted

end Queries

def Selection.uvm (wanted : UvmRecord → Bool) : Selection where
  kinds kind := (kind.uvmRecord id).any wanted
  top _ := false
  below _ kind := (kind.uvmRecord id).any wanted
  kinds_of_top := by simp
  kinds_of_below := id
  top_of_kinds := by
    intro kind _ htop hkind
    cases kind <;> simp_all [NodeKind.uvmRecord, NodeKind.IsTopLevel]
  sourceFile := rfl

namespace ProjectState

variable (parse : Text → Option Cst → Cst) (prepare : Text → Text → Text) (files : List FileRead)

/--
Every query reports the records that match the text, in whatever order the nodes and the file map
are gone over.
-/
structure UvmAgrees (query : Text) : Prop where
  cmdFactory : ∀ fileMap, fileMap ~ (loadFiles parse prepare files).fileMap.toList →
    Reports (loadFiles parse prepare files).graph (loadFiles parse prepare files).symbols
      (·.inFactory query)
      (CmdUvm.factoryHits (loadFiles parse prepare files).graph
        (loadFiles parse prepare files).symbols fileMap query)
  cmdTlm : ∀ fileMap, fileMap ~ (loadFiles parse prepare files).fileMap.toList →
    Reports (loadFiles parse prepare files).graph (loadFiles parse prepare files).symbols
      (·.isPortOf query)
      (CmdUvm.tlmHits (loadFiles parse prepare files).graph (loadFiles parse prepare files).symbols
        fileMap query)
  cmdConfig : ∀ fileMap, fileMap ~ (loadFiles parse prepare files).fileMap.toList →
    Reports (loadFiles parse prepare files).graph (loadFiles parse prepare files).symbols
      (·.inConfig query)
      (CmdUvm.configHits (loadFiles parse prepare files).graph
        (loadFiles parse prepare files).symbols fileMap query)
  uvmFactory : ∀ nodes, nodes ~ (loadFiles parse prepare files).graph.allNodes →
    Reports (loadFiles parse prepare files).graph (loadFiles parse prepare files).symbols
      (·.inFactory query)
      (UvmTool.factoryHits (loadFiles parse prepare files).graph
        (loadFiles parse prepare files).symbols nodes query)
  uvmTlm : ∀ nodes, nodes ~ (loadFiles parse prepare files).graph.allNodes →
    Reports (loadFiles parse prepare files).graph (loadFiles parse prepare files).symbols
      (·.isPortOf query)
      (UvmTool.tlmHits (loadFiles parse prepare files).graph
        (loadFiles parse prepare files).symbols nodes query)
  uvmConfig : ∀ nodes, nodes ~ (loadFiles parse prepare files).graph.allNodes →
    Reports (loadFiles parse prepare files).graph (loadFiles parse prepare files).symbols
      (·.inConfig query)
      (UvmTool.configHits (loadFiles parse prepare files).graph
        (loadFiles parse prepare files).symbols nodes query)

variable {parse prepare files}
variable {st : InMemoryGraph × GraphExtractor × Dict Text NodeId}

/-! ## What the command line reports -/

theorem recordOf_of_named {symbols : SymbolTable} {node : GraphNode} {content : NamedNode}
    (h : node.named symbols = some content)
    : recordOf symbols node = content.kind.uvmRecord id ∧ node.id = content.id := by
  refine ⟨?_, GraphNode.id_of_named h⟩
  have hsays := GraphNode.says_of_named h
  rw [recordOf]
  generalize node.kind = kind at hsays ⊢
  generalize content.kind = named at hsays ⊢
  cases hsays <;> simp [NodeKind.uvmRecord, nameOr, *]

def recordAt (node : NamedNode) : NodeId × UvmRecord :=
  (node.id, (node.kind.uvmRecord id).getD (.factoryCreate []))

theorem perm_recordsOf (h : Loaded parse prepare files st) (wanted : UvmRecord → Bool)
    : recordsOf st.1 st.2.1.symbols wanted
        ~ (nodesOfKinds parse prepare files (.uvm wanted)).map fun z => recordAt z.2 := by
  apply h.perm_filterMap_allNodes (s := .uvm wanted) recordAt
  intro node content hnamed
  have ⟨hrecord, hid⟩ := recordOf_of_named hnamed
  rw [hrecord, hid, recordAt]
  cases hkind : content.kind.uvmRecord id with
  | none => simp [Selection.uvm, hkind]
  | some record => by_cases hwanted : wanted record <;> simp [Selection.uvm, hkind, hwanted]

theorem perm_hitsBelow (h : Loaded parse prepare files st) (wanted kept : UvmRecord → Bool)
    (notes : GraphNode → GraphNode → List Text) {fileMap : List (Text × NodeId)}
    (hfileMap : fileMap ~ st.2.2.toList)
    : ((CmdUvm.hitsBelow st.1 st.2.1.symbols wanted notes fileMap).filter (kept ·.record)).map
          UvmHit.key
        ~ (seenNodes parse prepare files (.uvm fun record => wanted record && kept record)).map
          fun z => recordAt z.2 := by
  have hfilter := Chunks.flatMap_filter (CmdUvm.hitsBelow st.1 st.2.1.symbols wanted notes fileMap)
    (fun hit => kept hit.record = true) fun hit => [hit.key]
  simp only [Bool.decide_eq_true] at hfilter
  rw [List.map_eq_flatMap, hfilter, CmdUvm.hitsBelow]
  apply h.perm_flatMap_visit_named _ (fun _ content => recordAt content) _ _ hfileMap
  . intro file fid node content _
    rfl
  . intro file node ce child content hnamed
    have ⟨hrecord, hid⟩ := recordOf_of_named hnamed
    rw [hrecord, hid, recordAt]
    cases hkind : content.kind.uvmRecord id with
    | none => simp [Selection.uvm, hkind]
    | some record =>
      by_cases hwanted : wanted record
      . by_cases hkept : kept record <;> simp [Selection.uvm, hkind, hwanted, hkept, UvmHit.key,
          Option.filter]
      . simp [Selection.uvm, hkind, hwanted, Option.filter]

theorem perm_recordAt_iff {wanted : UvmRecord → Bool}
    : ((seenNodes parse prepare files (.uvm wanted)).map fun z => recordAt z.2)
          ~ ((nodesOfKinds parse prepare files (.uvm wanted)).map fun z => recordAt z.2)
        ↔ ShowsAll parse prepare files (.uvm wanted) := by
  constructor
  . intro hperm
    have hids := hperm.map Prod.fst
    rw [List.map_map, List.map_map] at hids
    exact perm_map_id_iff.mp hids
  . intro hshows
    exact (perm_iff.mpr hshows).map _

theorem reports_hitsBelow_iff (h : Loaded parse prepare files st) (wanted : UvmRecord → Bool)
    (notes : GraphNode → GraphNode → List Text) {fileMap : List (Text × NodeId)}
    (hfileMap : fileMap ~ st.2.2.toList)
    : Reports st.1 st.2.1.symbols wanted (CmdUvm.hitsBelow st.1 st.2.1.symbols wanted notes fileMap)
        ↔ ShowsAll parse prepare files (.uvm wanted) := by
  have hhits := perm_hitsBelow h wanted (fun _ => true) notes hfileMap
  simp only [List.filter_true, Bool.and_true] at hhits
  have hrecords := perm_recordsOf h wanted
  rw [← perm_recordAt_iff]
  exact ⟨fun hreports => hhits.symm.trans (hreports.trans hrecords),
    fun hperm => hhits.trans (hperm.trans hrecords.symm)⟩

theorem reports_tlmHits_iff (h : Loaded parse prepare files st) (component : Text)
    {fileMap : List (Text × NodeId)} (hfileMap : fileMap ~ st.2.2.toList)
    : Reports st.1 st.2.1.symbols (·.isPortOf component)
          (CmdUvm.tlmHits st.1 st.2.1.symbols fileMap component)
        ↔ ShowsAll parse prepare files (.uvm (·.isPortOf component))
          ∧ seenNodes parse prepare files
            (.uvm fun record => record.isPort && !record.isPortOf component) = [] := by
  have hports : (fun record : UvmRecord => record.isPort && record.isPortOf component)
      = (·.isPortOf component) := by
    funext record
    cases record <;> simp [UvmRecord.isPort, UvmRecord.isPortOf]
  have hkept := perm_hitsBelow h (·.isPort) (·.isPortOf component)
    (fun _ child => connections st.1 st.2.1.symbols child.id) hfileMap
  have hothers := perm_hitsBelow h (·.isPort) (fun record => !record.isPortOf component)
    (fun _ child => connections st.1 st.2.1.symbols child.id) hfileMap
  have hrecords := perm_recordsOf h (·.isPortOf component)
  rw [hports] at hkept
  rw [← perm_recordAt_iff, Reports, CmdUvm.tlmHits]
  constructor
  . intro hreports
    have hall : ∀ hit ∈ CmdUvm.hitsBelow st.1 st.2.1.symbols (·.isPort)
        (fun _ child => connections st.1 st.2.1.symbols child.id) fileMap,
        hit.record.isPortOf component := by
      intro hit hhit
      have hmem := hreports.subset (List.mem_map_of_mem (f := UvmHit.key) hhit)
      obtain ⟨node, _, hsome⟩ := List.mem_filterMap.mp hmem
      obtain ⟨record, hrecord, heq⟩ := Option.map_eq_some_iff.mp hsome
      rw [Option.filter_eq_some_iff] at hrecord
      rw [← (Prod.mk.inj heq).2]
      exact hrecord.2
    rw [List.filter_eq_self.mpr hall] at hkept
    refine ⟨hkept.symm.trans (hreports.trans hrecords), ?_⟩
    rw [List.filter_eq_nil_iff.mpr (by simpa using hall), List.map_nil] at hothers
    exact List.map_eq_nil_iff.mp hothers.nil_eq.symm
  . intro ⟨hperm, hnone⟩
    rw [hnone, List.map_nil, List.perm_nil, List.map_eq_nil_iff, List.filter_eq_nil_iff] at hothers
    have hall : ∀ hit ∈ CmdUvm.hitsBelow st.1 st.2.1.symbols (·.isPort)
        (fun _ child => connections st.1 st.2.1.symbols child.id) fileMap,
        hit.record.isPortOf component := by
      simpa using hothers
    rw [List.filter_eq_self.mpr hall] at hkept
    exact hkept.trans (hperm.trans hrecords.symm)

/-! ## What the tool server reports -/

theorem reports_hitsAmong_iff {g : InMemoryGraph} {symbols : SymbolTable} (hg : g.Keyed)
    {nodes : List GraphNode} (hnodes : nodes ~ g.allNodes) (wanted : UvmRecord → Bool)
    (wanted' : GraphNode → UvmRecord → Bool) (notes : GraphNode → List Text)
    : Reports g symbols wanted (UvmTool.hitsAmong symbols wanted' notes nodes)
        ↔ ∀ node ∈ g.allNodes, ∀ record, recordOf symbols node = some record →
          wanted' node record = wanted record := by
  let found (wanted : GraphNode → UvmRecord → Bool) (node : GraphNode) : Option
    (NodeId × UvmRecord) :=
    ((recordOf symbols node).filter (wanted node)).map fun record => (node.id, record)
  have hhits : (UvmTool.hitsAmong symbols wanted' notes nodes).map UvmHit.key
      ~ g.allNodes.filterMap (found wanted') := by
    have hmap : (UvmTool.hitsAmong symbols wanted' notes nodes).map UvmHit.key
        = nodes.filterMap (found wanted') := by
      rw [UvmTool.hitsAmong, List.map_filterMap]
      simp only [Option.map_map]
      rfl
    rw [hmap]
    exact hnodes.filterMap _
  have hmem : ∀ {wanted : GraphNode → UvmRecord → Bool} {node : GraphNode} {record : UvmRecord},
      node ∈ g.allNodes → recordOf symbols node = some record →
      ((node.id, record) ∈ g.allNodes.filterMap (found wanted) ↔ wanted node record) := by
    intro wanted node record hnode hrecord
    rw [List.mem_filterMap]
    constructor
    . rintro ⟨node', hnode', hfound⟩
      obtain ⟨record', hrecord', heq⟩ := Option.map_eq_some_iff.mp hfound
      obtain ⟨hid, rfl⟩ := Prod.mk.inj heq
      obtain rfl := List.inj_on_of_nodup_map hg.ids_nodup hnode' hnode hid
      exact (Option.filter_eq_some_iff.mp hrecord').2
    . intro hwanted
      exact ⟨node, hnode,
        Option.map_eq_some_iff.mpr ⟨record, Option.filter_eq_some_iff.mpr ⟨hrecord, hwanted⟩, rfl⟩⟩
  constructor
  . intro hreports node hnode record hrecord
    have hiff := (hhits.symm.trans hreports).mem_iff (a := (node.id, record))
    rw [hmem hnode hrecord] at hiff
    exact Bool.eq_iff_iff.mpr (hiff.trans (@hmem (fun _ => wanted) _ _ hnode hrecord))
  . intro hwanted
    refine hhits.trans (.of_eq ?_)
    apply List.filterMap_congr
    intro node hnode
    cases hrecord : recordOf symbols node with
    | none => simp [found, hrecord]
    | some record =>
      have hsame := hwanted node hnode record hrecord
      simp only [found, hrecord, Option.filter, hsame]

theorem parentClassName_of_reg (h : Loaded parse prepare files st) {node : GraphNode}
    (hnode : node ∈ st.1.allNodes) {typeName baseType : Text}
    (hrecord : recordOf st.2.1.symbols node = some (.factoryReg typeName baseType))
    : UvmTool.parentClassName st.1 st.2.1.symbols node.id = "unknown".toList := by
  obtain ⟨content, _, hnamed, _⟩ := h.exists_named hnode
  have hedge : ∀ e ∈ st.1.getIncoming node.id, e.edgeType ≠ .contains := by
    intro e he hcontains
    have hhangs := h.hangsBy_of_mem_getIncoming hnode hnamed he
    rw [(recordOf_of_named hnamed).1] at hrecord
    rw [hcontains] at hhangs
    revert hrecord hhangs
    cases content.kind <;> simp [NodeKind.uvmRecord, NodeKind.HangsBy]
  have hnone : UvmTool.findParentName st.1 st.2.1.symbols node.id = "unknown".toList := by
    rw [UvmTool.findParentName, List.findSome?_eq_none_iff.mpr, Option.getD_none]
    intro e he
    rw [if_neg (hedge e he)]
  rw [UvmTool.parentClassName, hnone]
  decide

/-! ## When they agree -/

variable (parse prepare files)

/-- Right below the items of the files there are no TLM ports of other components. -/
def NoOtherPorts (component : Text) : Prop :=
  ∀ x ∈ placed parse prepare files, lastUnder x.2.rel (placed parse prepare files) = some x →
    ∀ outline, outlineOf parse prepare x.2 = some outline →
      ∀ item ∈ outline.items, item.visits ≠ 0 →
      ∀ o ∈ item.outline.children, ∀ name direction, o.label.kind = .tlmPort name direction →
        name = component

/--
The matching records are where the command line gets once, and each query takes nothing that does
not match.
-/
structure UvmVisible (query : Text) : Prop where
  factory : ShowsAll parse prepare files (.uvm (·.inFactory query))
  config : ShowsAll parse prepare files (.uvm (·.inConfig query))
  ports : ShowsAll parse prepare files (.uvm (·.isPortOf query))
  noOtherPorts : NoOtherPorts parse prepare files query
  -- The tool takes "unknown" for the class that every registration is in
  unknown : query = "unknown".toList → ∀ node ∈ (loadFiles parse prepare files).graph.allNodes,
    ∀ typeName baseType,
    recordOf (loadFiles parse prepare files).symbols node = some (.factoryReg typeName baseType) →
      typeName = query ∨ baseType = query

variable {parse prepare files} {query : Text}

theorem seenNodes_otherPorts_iff
    : seenNodes parse prepare files (.uvm fun record => record.isPort && !record.isPortOf query)
        = []
        ↔ NoOtherPorts parse prepare files query := by
  have hkind : ∀ kind : NodeKind Text,
      (¬((kind.uvmRecord id).any fun record => record.isPort && !record.isPortOf query) = true)
        ↔ ∀ name direction, kind = .tlmPort name direction → name = query := by
    intro kind
    cases kind <;> simp [NodeKind.uvmRecord, UvmRecord.isPort, UvmRecord.isPortOf]
  rw [seenNodes_eq_nil_iff fun _ => rfl]
  simp only [Selection.uvm, hkind]
  rfl

theorem reports_factoryHits_iff (h : Loaded parse prepare files st) {nodes : List GraphNode}
    (hnodes : nodes ~ st.1.allNodes) (hquery : query ≠ "*".toList)
    : Reports st.1 st.2.1.symbols (·.inFactory query)
          (UvmTool.factoryHits st.1 st.2.1.symbols nodes query)
        ↔ (query = "unknown".toList → ∀ node ∈ st.1.allNodes, ∀ typeName baseType,
            recordOf st.2.1.symbols node = some (.factoryReg typeName baseType) → typeName = query
              ∨ baseType = query) := by
  rw [UvmTool.factoryHits, reports_hitsAmong_iff h.reachable.keyed hnodes]
  constructor
  . intro hwanted hunknown node hnode typeName baseType hrecord
    have hsame := hwanted node hnode _ hrecord
    rw [parentClassName_of_reg h hnode hrecord, decide_eq_true hunknown.symm,
      decide_eq_false hquery] at hsame
    have hfactory : (UvmRecord.factoryReg typeName baseType).inFactory query = true := by
      simpa only [UvmTool.isReg, Bool.and_true, Bool.or_true, Bool.true_or, Bool.true_eq]
        using hsame
    simpa only [UvmRecord.inFactory, Bool.or_eq_true, decide_eq_true_eq] using hfactory
  . intro hunknown node hnode record hrecord
    simp only [decide_eq_false hquery, Bool.and_false, Bool.false_or]
    cases record with
    | factoryReg typeName baseType =>
      rw [parentClassName_of_reg h hnode hrecord]
      by_cases heq : query = "unknown".toList
      . have hmatch := hunknown heq node hnode typeName baseType hrecord
        have hfactory : (UvmRecord.factoryReg typeName baseType).inFactory query = true := by
          simpa only [UvmRecord.inFactory, Bool.or_eq_true, decide_eq_true_eq] using hmatch
        rw [hfactory, Bool.true_or]
      . rw [decide_eq_false (Ne.symm heq), Bool.and_false, Bool.or_false]
    | _ => exact Bool.or_false _

variable (parse prepare files)

/--
The queries of the command line and of the server report the same records, each once, if and only if
the matching records are right below modules, packages or interfaces of files whose paths are loaded
only once, no other TLM ports are there, and the text is not the one that the server takes for every
class.
-/
theorem uvmAgrees_iff (hquery : query ≠ "*".toList)
    : UvmAgrees parse prepare files query ↔ UvmVisible parse prepare files query := by
  have h := loaded_foldl parse prepare files
  have hkeyed := h.reachable.keyed
  have hconfig : (fun record : UvmRecord =>
    record.inConfig query || record.isConfig && decide (query = "*".toList))
      = (·.inConfig query) := by
    funext record
    rw [decide_eq_false hquery, Bool.and_false, Bool.or_false]
  constructor
  . intro hagrees
    have htlm := (reports_tlmHits_iff h query (.refl _)).mp (hagrees.cmdTlm _ (.refl _))
    constructor
    case factory =>
      exact (reports_hitsBelow_iff h _ _ (.refl _)).mp (hagrees.cmdFactory _ (.refl _))
    case config =>
      have hreports := hagrees.cmdConfig _ (.refl _)
      rw [CmdUvm.configHits, hconfig] at hreports
      exact (reports_hitsBelow_iff h _ _ (.refl _)).mp hreports
    case ports => exact htlm.1
    case noOtherPorts => exact seenNodes_otherPorts_iff.mp htlm.2
    case unknown =>
      exact (reports_factoryHits_iff h (.refl _) hquery).mp (hagrees.uvmFactory _ (.refl _))
  . intro hvisible
    constructor
    case cmdFactory =>
      intro fileMap hfileMap
      exact (reports_hitsBelow_iff h _ _ hfileMap).mpr hvisible.factory
    case cmdTlm =>
      intro fileMap hfileMap
      exact (reports_tlmHits_iff h query hfileMap).mpr
        ⟨hvisible.ports, seenNodes_otherPorts_iff.mpr hvisible.noOtherPorts⟩
    case cmdConfig =>
      intro fileMap hfileMap
      rw [CmdUvm.configHits, hconfig]
      exact (reports_hitsBelow_iff h _ _ hfileMap).mpr hvisible.config
    case uvmFactory =>
      intro nodes hnodes
      exact (reports_factoryHits_iff h hnodes hquery).mpr hvisible.unknown
    case uvmTlm =>
      intro nodes hnodes
      apply (reports_hitsAmong_iff hkeyed hnodes _ _ _).mpr
      intro node _ record _
      rw [decide_eq_false hquery, Bool.and_false, Bool.false_or]
    case uvmConfig =>
      intro nodes hnodes
      apply (reports_hitsAmong_iff hkeyed hnodes _ _ _).mpr
      intro node _ record _
      rw [decide_eq_false hquery, Bool.and_false, Bool.false_or]

def parseRegistered (text : Text) (_old : Option Cst) : Cst :=
  .node .other [] text ⟨0, 0⟩ [
    .node .classDeclaration [] text ⟨0, 0⟩ [
      .node .simpleIdentifier [.name] "c".toList ⟨0, 6⟩ [],
      .node .classItem [] [] ⟨1, 0⟩ [
        .node .classProperty [] [] ⟨1, 0⟩ [
          .node .dataDeclaration [] "typedef uvm_object_registry #(c, \"c\") type_id;".toList ⟨1, 0⟩
          []]]]]

def registeredFile : FileRead :=
  ⟨"c.sv".toList,
    some "class c;\ntypedef uvm_object_registry #(c, \"c\") type_id;\nendclass".toList⟩

theorem uvmAgrees_iff_registered
    : UvmAgrees parseRegistered (fun source _ => source) [registeredFile] "c".toList
        ↔ UvmVisible parseRegistered (fun source _ => source) [registeredFile] "c".toList :=
  uvmAgrees_iff parseRegistered (fun source _ => source) [registeredFile] (by decide)

-- Two edges lead from the file to the class, so that the command line reports the registration
-- twice
theorem not_uvmAgrees_registered
    : ¬UvmAgrees parseRegistered (fun source _ => source) [registeredFile] "c".toList := by
  intro h
  have hlength := (h.cmdFactory _ (.refl _)).length_eq
  revert hlength
  decide +kernel

end ProjectState
end HdlGraph
