import HdlGraph.Frontend.Check
import HdlGraph.Frontend.Impact

/-!
This module contains the two reference searches. That of the command line goes over the references
to the targets twice, once from the targets and once from the other nodes; that of the tool server
goes over them once.
-/

namespace HdlGraph

open scoped List

/-- What a line is printed for: the node that refers, how it refers, and the line -/
structure Reference where
  source : NodeId
  edgeType : EdgeType
  line : Text
  deriving DecidableEq, Repr

namespace Refs

variable (g : InMemoryGraph) (symbols : SymbolTable)

def isRefEdge : EdgeType → Bool
  | .references | .drives | .extends | .calls | .configSets | .configGets | .instantiates
  | .connects | .factoryRegisters | .factoryOverrides | .tlmBinds => true
  | _ => false

def nodeNameStr : NodeKind InternedString → Option Text
  | .module name | .class name _ | .package name | .interface name | .function name
      _ | .signalDecl name _
  | .modulePort name _ | .moduleInstance name _ | .property name | .variableRef
      name | .method name _
  | .tlmPort name _ | .sequenceDecl name | .propertyDecl name | .coverGroup name | .coverPoint name
  | .modport name | .configBlock name => symbols.resolve name
  | .callSite target => symbols.resolve target
  | .dpiImport functionName => symbols.resolve functionName
  | .configDBSet field | .configDBGet field => symbols.resolve field
  | .factoryReg typeName _ => symbols.resolve typeName
  | .factoryCreate typeName => symbols.resolve typeName
  | .factoryOverride originalType _ => symbols.resolve originalType
  | _ => none

def targetIds (nodes : List GraphNode) (symbol : Text) : List NodeId :=
  (nodes.filter fun n => nodeNameStr symbols n.kind = some symbol).map (·.id)

def reference (symbol : Text) (source : GraphNode) (edge : Edge) : Reference where
  source := source.id
  edgeType := edge.edgeType
  line :=
    nodeKindStr source.kind ++ " ".toList
      ++ (nodeNameStr symbols source.kind).getD (idLabel source.id)
      ++ " -> ".toList ++ edge.edgeType.name ++ " -> ".toList ++ symbol

-- Step 2: the incoming edges of the targets
def incomingPass (targets : List NodeId) (symbol : Text) : List Reference :=
  targets.flatMap fun tid =>
    (g.getIncoming tid).filterMap fun edge =>
      if isRefEdge edge.edgeType then (g.getNode edge.source).map fun src =>
        reference symbols symbol src edge
      else none

-- Step 3: the outgoing edges of the other nodes
def outgoingPass (nodes : List GraphNode) (targets : List NodeId) (symbol : Text)
    : List Reference :=
  nodes.flatMap fun node =>
    if node.id ∈ targets then
      []
    else
      (g.getOutgoing node.id).filterMap fun edge =>
        if isRefEdge edge.edgeType ∧ edge.target ∈ targets then
          some (reference symbols symbol node edge) else none

def found (nodes : List GraphNode) (symbol : Text) : List Reference :=
  let targets := targetIds symbols nodes symbol
  incomingPass g symbols targets symbol ++ outgoingPass g symbols nodes targets symbol

def cmdRefs (nodes : List GraphNode) (symbol : Text) : Text :=
  if (targetIds symbols nodes symbol).isEmpty ∨ (found g symbols nodes symbol).isEmpty then
    println ("No references found for: ".toList ++ symbol)
  else
    (found g symbols nodes symbol).flatMap fun r => println r.line

end Refs

namespace Callers

variable (g : InMemoryGraph) (symbols : SymbolTable)

def isRefEdge : EdgeType → Bool
  | .references | .drives | .extends | .calls | .configSets | .configGets | .instantiates
  | .connects | .factoryRegisters | .factoryOverrides | .tlmBinds => true
  | _ => false

def nodeNameStr : NodeKind InternedString → Option Text
  | .module name | .class name _ | .package name | .interface name | .function name
      _ | .signalDecl name _
  | .modulePort name _ | .moduleInstance name _ | .property name | .variableRef
      name | .callSite name
  | .method name _ | .tlmPort name _ => symbols.resolve name
  | _ => none

def formatNode (node : GraphNode) : Text :=
  let kindStr :=
    match node.kind with
    | .module .. => "module".toList
    | .class .. => "class".toList
    | .function .. => "function".toList
    | .alwaysBlock .. => "always".toList
    | .assignment => "assign".toList
    | _ => "node".toList
  match nodeNameStr symbols node.kind with
  | some name => kindStr ++ " ".toList ++ name
  | none => kindStr ++ " ".toList ++ idLabel node.id

def targetIds (nodes : List GraphNode) (symbol : Text) : List NodeId :=
  (nodes.filter fun n => nodeNameStr symbols n.kind = some symbol).map (·.id)

def reference (symbol : Text) (source : GraphNode) (edge : Edge) : Reference where
  source := source.id
  edgeType := edge.edgeType
  line :=
    "  ".toList ++ (nodeNameStr symbols source.kind).getD (formatNode symbols source) ++ " ".toList
      ++ edge.edgeType.name ++ " ".toList ++ symbol

def results (nodes : List GraphNode) (symbol : Text) : List Reference :=
  let targets := targetIds symbols nodes symbol
  nodes.flatMap fun node =>
    (g.getOutgoing node.id).filterMap fun edge =>
      if isRefEdge edge.edgeType ∧ edge.target ∈ targets then
        some (reference symbols symbol node edge) else none

def run (nodes : List GraphNode) (symbol : Text) : Text :=
  if (targetIds symbols nodes symbol).isEmpty ∨ (results g symbols nodes symbol).isEmpty then
    "No references found for: ".toList ++ symbol
  else
    "References to ".toList ++ symbol ++ ":\n".toList
      ++ (results g symbols nodes symbol).flatMap fun r => r.line ++ "\n".toList

end Callers

namespace Refs

variable (g : InMemoryGraph) (symbols : SymbolTable)

/-! ## What is to be reported -/

def IsNamed (symbol : Text) (id : NodeId) : Prop :=
  ∃ node, g.getNode id = some node ∧ nodeNameStr symbols node.kind = some symbol

instance (symbol : Text) (id : NodeId) : Decidable (IsNamed g symbols symbol id) :=
  decidable_of_iff ((g.getNode id).any fun node => nodeNameStr symbols node.kind = some symbol) (by
    simp [IsNamed, Option.any_eq_true])

def expected (symbol : Text) : List Reference :=
  g.allEdges.filterMap fun edge =>
    if isRefEdge edge.edgeType ∧ IsNamed g symbols symbol edge.target then
      (g.getNode edge.source).map fun src => reference symbols symbol src edge
    else none

def BothName (symbol : Text) : Prop :=
  ∀ node ∈ g.allNodes, nodeNameStr symbols node.kind = some symbol →
    (Callers.nodeNameStr symbols node.kind).isSome = true

def pair (r : Reference) : NodeId × EdgeType := (r.source, r.edgeType)

def printReferences (symbol : Text) (references : List Reference) : Text :=
  if references.isEmpty then println ("No references found for: ".toList ++ symbol)
  else references.flatMap fun r => println r.line

/--
The command line reports each reference once, and the tool the same ones if it can name the targets.
-/
structure ReportsOnce (nodes : List GraphNode) (symbol : Text) : Prop where
  reported : found g symbols nodes symbol ~ expected g symbols symbol
  printed : ∃ references, references ~ expected g symbols symbol ∧
    cmdRefs g symbols nodes symbol = printReferences symbol references
  callers : BothName g symbols symbol →
    (Callers.results g symbols nodes symbol).map pair ~ (found g symbols nodes symbol).map pair

def RefersToItself (symbol : Text) : Prop :=
  ∀ edge ∈ g.allEdges, isRefEdge edge.edgeType → IsNamed g symbols symbol edge.target →
    (g.getNode edge.source).isSome → IsNamed g symbols symbol edge.source

instance (symbol : Text) : Decidable (RefersToItself g symbols symbol) :=
  inferInstanceAs (Decidable (∀ edge ∈ g.allEdges, isRefEdge edge.edgeType → _ → _ → _))

/-! ## What is reported -/

variable {g symbols} {nodes : List GraphNode} {symbol : Text}

theorem mem_targetIds_iff (h : g.Keyed) (hnodes : nodes ~ g.allNodes) {id : NodeId}
    : id ∈ targetIds symbols nodes symbol ↔ IsNamed g symbols symbol id := by
  simp only [targetIds, IsNamed, List.mem_map, List.mem_filter, hnodes.mem_iff,
    h.getNode_eq_some_iff, decide_eq_true_eq]
  grind

theorem targetIds_nodup (h : g.Keyed) (hnodes : nodes ~ g.allNodes)
    : (targetIds symbols nodes symbol).Nodup := by
  have hnodup : (nodes.map GraphNode.id).Nodup :=
    (hnodes.map GraphNode.id).nodup_iff.mpr h.ids_nodup
  exact (List.filter_sublist.map GraphNode.id).nodup hnodup

theorem expected_perm {log : List Edge} (hlog : g.Logs log)
    : expected g symbols symbol
        ~
      log.filterMap fun edge =>
        if isRefEdge edge.edgeType ∧ IsNamed g symbols symbol edge.target then
          (g.getNode edge.source).map fun src => reference symbols symbol src edge
        else none :=
  hlog.perm_allEdges.filterMap _

theorem incomingPass_perm (h : g.Reachable) (hnodes : nodes ~ g.allNodes)
    : incomingPass g symbols (targetIds symbols nodes symbol) symbol
        ~ expected g symbols symbol := by
  obtain ⟨log, hlog⟩ := h.logs
  have hnodup : (targetIds symbols nodes symbol).Nodup := targetIds_nodup h.keyed hnodes
  have hincoming := (hlog.perm_flatMap_getIncoming hnodup).filterMap
    fun edge => if isRefEdge edge.edgeType then (g.getNode edge.source).map fun src =>
      reference symbols symbol src edge
      else none
  rw [List.filterMap_flatMap, List.filterMap_filter] at hincoming
  refine (hincoming.trans (.of_eq ?_)).trans (expected_perm hlog).symm
  apply List.filterMap_congr
  intro edge _
  have hmem : edge.target ∈ targetIds symbols nodes symbol ↔ IsNamed g symbols symbol edge.target :=
    mem_targetIds_iff h.keyed hnodes
  by_cases hnamed : IsNamed g symbols symbol edge.target <;> simp [hmem, hnamed]

theorem outgoingPass_eq_nil_iff (h : g.Reachable) (hnodes : nodes ~ g.allNodes)
    : outgoingPass g symbols nodes (targetIds symbols nodes symbol) symbol = []
        ↔ RefersToItself g symbols symbol := by
  obtain ⟨log, hlog⟩ := h.logs
  have hmem : ∀ id, id ∈ targetIds symbols nodes symbol ↔ IsNamed g symbols symbol id := fun id =>
    mem_targetIds_iff h.keyed hnodes
  rw [outgoingPass, List.flatMap_eq_nil_iff]
  constructor
  . intro hnil edge hedge href htarget hsource
    obtain ⟨src, hsrc⟩ := Option.isSome_iff_exists.mp hsource
    have ⟨hstored, hid⟩ := h.keyed.getNode_eq_some_iff.mp hsrc
    have hnone := hnil src (hnodes.mem_iff.mpr hstored)
    have hout : edge ∈ g.getOutgoing src.id :=
      hlog.mem_getOutgoing.mpr ⟨hlog.perm_allEdges.mem_iff.mp hedge, hid.symm⟩
    rw [← hid, ← hmem]
    by_contra hother
    rw [if_neg hother, List.filterMap_eq_nil_iff] at hnone
    have hedgeNone := hnone edge hout
    simp [href, (hmem _).mpr htarget] at hedgeNone
  . intro hrefers node hnode
    have hstored : g.getNode node.id = some node :=
      h.keyed.getNode_eq_some_iff.mpr ⟨hnodes.mem_iff.mp hnode, rfl⟩
    split
    next => rfl
    next hother =>
      rw [List.filterMap_eq_nil_iff]
      intro edge hedge
      have ⟨hlogged, hsource⟩ := hlog.mem_getOutgoing.mp hedge
      rw [if_neg]
      rintro ⟨href, htarget⟩
      apply hother
      rw [hmem, ← hsource]
      apply hrefers edge (hlog.perm_allEdges.mem_iff.mpr hlogged) href ((hmem _).mp htarget)
      simp [hsource, hstored]

theorem callers_targetIds_eq (hnodes : nodes ~ g.allNodes) (hnamed : BothName g symbols symbol)
    : Callers.targetIds symbols nodes symbol = Refs.targetIds symbols nodes symbol := by
  rw [Callers.targetIds, Refs.targetIds]
  congr 1
  apply List.filter_congr
  intro node hnode
  have hboth := hnamed node (hnodes.mem_iff.mp hnode)
  -- every kind that the tool names is named by the command line as well
  have hsame : ∀ name, Callers.nodeNameStr symbols node.kind = some name →
      nodeNameStr symbols node.kind = some name := by
    intro name hname
    cases hkind : node.kind <;> simp_all [Callers.nodeNameStr, nodeNameStr]
  rw [decide_eq_decide]
  constructor
  . exact hsame symbol
  . intro hname
    obtain ⟨other, hother⟩ := Option.isSome_iff_exists.mp (hboth hname)
    rw [hother, ← hsame other hother, hname]

theorem callers_perm (h : g.Reachable) (hnodes : nodes ~ g.allNodes)
    (hnamed : BothName g symbols symbol)
    : (Callers.results g symbols nodes symbol).map pair ~ (expected g symbols symbol).map pair := by
  obtain ⟨log, hlog⟩ := h.logs
  have hmem : ∀ id, id ∈ targetIds symbols nodes symbol ↔ IsNamed g symbols symbol id := fun id =>
    mem_targetIds_iff h.keyed hnodes
  have hresults : (Callers.results g symbols nodes symbol).map pair
      = (edgesOfNodes g nodes).filterMap fun edge =>
          if isRefEdge edge.edgeType ∧ IsNamed g symbols symbol edge.target then
            some (edge.source, edge.edgeType)
          else none := by
    rw [Callers.results, edgesOfNodes, List.map_flatMap, List.filterMap_flatMap]
    apply List.flatMap_congr
    intro node _
    rw [List.map_filterMap]
    apply List.filterMap_congr
    intro edge hedge
    have hsource := (hlog.mem_getOutgoing.mp hedge).2
    have hiff := hmem edge.target
    rw [← callers_targetIds_eq hnodes hnamed] at hiff
    by_cases htarget : IsNamed g symbols symbol edge.target <;> by_cases href : isRefEdge
      edge.edgeType <;>
      simp_all [Callers.isRefEdge, isRefEdge, pair, Callers.reference]
  rw [hresults]
  refine ((perm_edgesOfNodes h.keyed hlog hnodes).filterMap _).trans ?_
  rw [List.filterMap_filter]
  refine (List.Perm.of_eq ?_).trans ((expected_perm hlog).map pair).symm
  rw [List.map_filterMap]
  apply List.filterMap_congr
  intro edge _
  cases hsrc : g.getNode edge.source with
  | none => simp
  | some src =>
    have hid := (h.keyed.getNode_eq_some_iff.mp hsrc).2
    by_cases hcond : isRefEdge edge.edgeType ∧ IsNamed g symbols symbol edge.target <;>
      simp [hcond, pair, reference, hid]

theorem cmdRefs_eq
    : cmdRefs g symbols nodes symbol = printReferences symbol (found g symbols nodes symbol) := by
  have hfound : targetIds symbols nodes symbol = [] → found g symbols nodes symbol = [] := by
    intro htargets
    simp [found, htargets, incomingPass, outgoingPass]
  simp only [cmdRefs, printReferences, List.isEmpty_iff, or_iff_right_of_imp hfound]

def refSymbols : SymbolTable := ((SymbolTable.new.intern "a".toList).2.intern "b".toList).2

def recursiveOps : List GraphOp := [
  .addNode
    { id := 1, kind := .function ⟨0⟩ false, scopeId := none, fileId := 1, line := 1, col := 0 },
  .addEdge { source := 1, target := 1, edgeType := .calls }
]

def calledOps : List GraphOp := [
  .addNode
    { id := 1, kind := .function ⟨0⟩ false, scopeId := none, fileId := 1, line := 1, col := 0 },
  .addNode
    { id := 2, kind := .function ⟨1⟩ false, scopeId := none, fileId := 1, line := 5, col := 0 },
  .addEdge { source := 2, target := 1, edgeType := .calls }
]

end Refs
end HdlGraph
