import HdlGraph.Frontend.Drivers
import HdlGraph.Frontend.Instances
import HdlGraph.Frontend.Refs
import HdlGraph.Project.Declared

/-!
This module contains the search for the callers of a function, and what the searches over calls,
drivers and references find in a loaded project: extraction makes no call sites and no edges for
calls, drivers or readers.
-/

namespace HdlGraph

open scoped List

/-! ## The commands -/

namespace CallSites

section Commands

variable (nameStr : SymbolTable → NodeKind InternedString → Option Text) (g : InMemoryGraph)
  (symbols : SymbolTable)

def nameOrId (node : GraphNode) : Text :=
  (nameStr symbols node.kind).getD ("node ".toList ++ idLabel node.id)

def calledIn (parent : GraphNode) : Text := "  called in ".toList ++ nameOrId nameStr symbols parent

def calledFrom (node : GraphNode) : Text := "  called from ".toList ++ nameOrId nameStr symbols node

def callSiteLines (name : Text) (node : GraphNode) : List Text :=
  match node.kind with
  | .callSite target =>
    if symbols.resolve target = some name then
      (g.getIncoming node.id).filterMap fun e =>
        if e.edgeType = .contains then (g.getNode e.source).map (calledIn nameStr symbols) else none
    else []
  | _ => []

def callEdgeLines (name : Text) (node : GraphNode) : List Text :=
  (g.getOutgoing node.id).filterMap fun e =>
    if e.edgeType = .calls then
      (g.getNode e.target).bind fun target =>
        if nameStr symbols target.kind = some name then some (calledFrom nameStr symbols node)
          else none
    else none

def results (nodes : List GraphNode) (name : Text) : List Text :=
  nodes.flatMap fun node =>
    callSiteLines nameStr g symbols name node ++ callEdgeLines nameStr g symbols name node

end Commands
end CallSites

namespace CmdCalls

variable (g : InMemoryGraph) (symbols : SymbolTable)

def results (nodes : List GraphNode) (name : Text) : List Text :=
  CallSites.results Refs.nodeNameStr g symbols nodes name

def cmdCalls (nodes : List GraphNode) (name : Text) : Text :=
  let found := results g symbols nodes name
  if found.isEmpty then println ("No call sites found for: ".toList ++ name)
  else println ("Call sites for ".toList ++ name ++ ":".toList) ++ found.flatMap println

end CmdCalls

namespace Callees

variable (g : InMemoryGraph) (symbols : SymbolTable)

def results (nodes : List GraphNode) (name : Text) : List Text :=
  CallSites.results Callers.nodeNameStr g symbols nodes name

def run (nodes : List GraphNode) (name : Text) : Text :=
  let found := results g symbols nodes name
  if found.isEmpty then "No call sites found for: ".toList ++ name
  else "Call sites for ".toList ++ name ++ ":\n".toList ++ found.flatMap fun r => r ++ ['\n']

end Callees

namespace CallSites

/-! ## What is to be listed -/

section Expected

variable (nameStr : SymbolTable → NodeKind InternedString → Option Text) (g : InMemoryGraph)
  (symbols : SymbolTable)

def IsSiteOf (name : Text) (kind : NodeKind InternedString) : Bool :=
  match kind with
  | .callSite target => symbols.resolve target = some name
  | _ => false

def siteLine (name : Text) (e : Edge) : Option Text :=
  if e.edgeType = .contains
    ∧ (g.getNode e.target).any fun target => IsSiteOf symbols name target.kind then
    (g.getNode e.source).map (calledIn nameStr symbols)
  else none

def callerLine (name : Text) (e : Edge) : Option Text :=
  if e.edgeType = .calls
    ∧ (g.getNode e.target).any fun target => nameStr symbols target.kind = some name then
    (g.getNode e.source).map (calledFrom nameStr symbols)
  else none

-- One line for each stored edge from a stored node to a call site of `name`, or for a call of what
-- `name` names
def expected (name : Text) : List Text :=
  g.allEdges.filterMap fun e =>
    (siteLine nameStr g symbols name e).or (callerLine nameStr g symbols name e)

end Expected

/-! ## What is listed -/

section Listed

variable {nameStr : SymbolTable → NodeKind InternedString → Option Text} {g : InMemoryGraph}
  {symbols : SymbolTable}
variable {nodes : List GraphNode} {name : Text}

theorem perm_filterMap_or {α β : Type} {f f' : α → Option β} (l : List α)
    (h : ∀ x, f x = none ∨ f' x = none)
    : l.filterMap f ++ l.filterMap f' ~ l.filterMap fun x => (f x).or (f' x) := by
  induction l with
  | nil => exact .refl _
  | cons x rest ih =>
    rcases h x with hx | hx
    . cases hx' : f' x with
      | none => simpa only [List.filterMap_cons, hx, hx', Option.or_none] using ih
      | some y =>
        simp only [List.filterMap_cons, hx, hx', Option.none_or]
        exact List.perm_middle.trans (ih.cons y)
    . cases hx' : f x with
      | none => simpa only [List.filterMap_cons, hx, hx', Option.or_none] using ih
      | some y =>
        simp only [List.filterMap_cons, hx, hx', Option.some_or, List.cons_append]
        exact ih.cons y

theorem siteLine_or_callerLine (e : Edge)
    : siteLine nameStr g symbols name e = none ∨ callerLine nameStr g symbols name e = none := by
  by_cases hcontains : e.edgeType = .contains
  . right
    rw [callerLine, hcontains, if_neg (by simp)]
  . left
    rw [siteLine, if_neg fun h => hcontains h.1]

theorem callSiteLines_eq {log : List Edge} (hlog : g.Logs log) {node : GraphNode}
    (hnode : g.getNode node.id = some node)
    : callSiteLines nameStr g symbols name node
        = (g.getIncoming node.id).filterMap (siteLine nameStr g symbols name) := by
  have hsite : ∀ e ∈ g.getIncoming node.id, siteLine nameStr g symbols name e
      = if e.edgeType = .contains
        ∧ IsSiteOf symbols name node.kind then (g.getNode e.source).map (calledIn nameStr symbols)
        else none := by
    intro e he
    rw [siteLine, (hlog.mem_getIncoming.mp he).2, hnode, Option.any_some]
  rw [List.filterMap_congr hsite, callSiteLines]
  split
  . next target hkind =>
    rw [hkind]
    by_cases hname : symbols.resolve target = some name <;> simp [IsSiteOf, hname]
  . next hkind =>
    have hno : IsSiteOf symbols name node.kind = false := by
      unfold IsSiteOf
      split
      . next target heq => exact absurd heq (hkind target)
      . rfl
    simp [hno]

theorem callEdgeLines_eq {log : List Edge} (hlog : g.Logs log) {node : GraphNode}
    (hnode : g.getNode node.id = some node)
    : callEdgeLines nameStr g symbols name node
        = (g.getOutgoing node.id).filterMap (callerLine nameStr g symbols name) := by
  apply List.filterMap_congr
  intro e he
  rw [callerLine, (hlog.mem_getOutgoing.mp he).2, hnode, Option.map_some]
  cases g.getNode e.target with
  | none => simp
  | some target => by_cases hcalls : e.edgeType = .calls <;> simp [hcalls]

theorem stored_of_siteLine {e : Edge} {line : Text}
    (h : siteLine nameStr g symbols name e = some line)
    : ∃ target, g.getNode e.target = some target := by
  rw [siteLine] at h
  split at h
  . next hcond => exact (Option.any_eq_true _ _).mp hcond.2 |>.imp fun _ h => h.1
  . contradiction

theorem stored_of_callerLine {e : Edge} {line : Text}
    (h : callerLine nameStr g symbols name e = some line)
    : ∃ source, g.getNode e.source = some source := by
  rw [callerLine] at h
  split at h
  . exact (Option.map_eq_some_iff.mp h).imp fun _ h => h.1
  . contradiction

variable (nameStr symbols name)

/-- Every edge of a call is listed once, whatever the order of the nodes. -/
theorem perm_results (h : g.Reachable) (hnodes : nodes ~ g.allNodes)
    : results nameStr g symbols nodes name ~ expected nameStr g symbols name := by
  obtain ⟨log, hlog⟩ := h.logs
  have hstored : ∀ node ∈ nodes, g.getNode node.id = some node := fun node hnode =>
    h.keyed.getNode_eq_some_iff.mpr ⟨hnodes.mem_iff.mp hnode, rfl⟩
  have hnodup : (nodes.map GraphNode.id).Nodup :=
    (hnodes.map GraphNode.id).nodup_iff.mpr h.keyed.ids_nodup
  have hmem : ∀ id, id ∈ nodes.map GraphNode.id ↔ (g.getNode id).isSome :=
    mem_map_id_iff h.keyed hnodes
  have hsites : nodes.flatMap (callSiteLines nameStr g symbols name)
      ~ log.filterMap (siteLine nameStr g symbols name) := by
    rw [List.flatMap_congr fun node hnode => callSiteLines_eq hlog (hstored node hnode),
      ← List.filterMap_flatMap, ← List.flatMap_map]
    refine ((hlog.perm_flatMap_getIncoming hnodup).filterMap _).trans (.of_eq ?_)
    rw [List.filterMap_filter]
    apply List.filterMap_congr
    intro e _
    cases hline : siteLine nameStr g symbols name e with
    | none => simp
    | some line =>
      have hin : e.target ∈ nodes.map GraphNode.id :=
        (hmem _).mpr (Option.isSome_iff_exists.mpr (stored_of_siteLine hline))
      simp only [hin, decide_true, if_true]
  have hcalls : nodes.flatMap (callEdgeLines nameStr g symbols name)
      ~ log.filterMap (callerLine nameStr g symbols name) := by
    rw [List.flatMap_congr fun node hnode => callEdgeLines_eq hlog (hstored node hnode),
      ← List.filterMap_flatMap, ← List.flatMap_map]
    refine ((hlog.perm_flatMap_getOutgoing hnodup).filterMap _).trans (.of_eq ?_)
    rw [List.filterMap_filter]
    apply List.filterMap_congr
    intro e _
    cases hline : callerLine nameStr g symbols name e with
    | none => simp
    | some line =>
      have hin : e.source ∈ nodes.map GraphNode.id :=
        (hmem _).mpr (Option.isSome_iff_exists.mpr (stored_of_callerLine hline))
      simp only [hin, decide_true, if_true]
  calc results nameStr g symbols nodes name
      ~ nodes.flatMap (callSiteLines nameStr g symbols name)
        ++ nodes.flatMap (callEdgeLines nameStr g symbols name) :=
        (List.flatMap_append_perm _ _ _).symm
    _ ~ log.filterMap (siteLine nameStr g symbols name)
      ++ log.filterMap (callerLine nameStr g symbols name) :=
        hsites.append hcalls
    _ ~ log.filterMap fun e =>
      (siteLine nameStr g symbols name e).or (callerLine nameStr g symbols name e) :=
        perm_filterMap_or log fun e => siteLine_or_callerLine e
    _ ~ expected nameStr g symbols name := (hlog.perm_allEdges.filterMap _).symm

end Listed

/-! ## Loaded projects -/

/--
The searches over calls, drivers and readers find nothing, the one over references finds UVM factory
records only.
-/
structure FindsNothing (g : InMemoryGraph) (symbols : SymbolTable) (fileMap : List (Text × NodeId))
    (nodes : List GraphNode) (name : Text) : Prop where
  cmdCalls : CmdCalls.cmdCalls g symbols nodes name
    = println ("No call sites found for: ".toList ++ name)
  callees : Callees.run g symbols nodes name = "No call sites found for: ".toList ++ name
  callers : Callers.run g symbols nodes name = "No references found for: ".toList ++ name
  refs : ∀ r ∈ Refs.found g symbols nodes name, r.edgeType = .factoryRegisters
    ∨ r.edgeType = .factoryOverrides
  drivers : ∃ bound, ∀ fuel, bound < fuel →
    g.cmdDrivers symbols fileMap name fuel = some (InMemoryGraph.cmdDriversText name ([], []))
      ∧ g.driversTool symbols fileMap name fuel
        = some ("No drivers/readers found for: ".toList ++ name)

section Factory

variable {kind : NodeKind InternedString} {edgeType : EdgeType} (h : kind.HangsBy edgeType)

include h

theorem isDriving_of_hangsBy : edgeType.isDriving = false := by
  cases kind <;> simp only [NodeKind.HangsBy] at h <;> rcases h with rfl | rfl <;> rfl

theorem not_calls_of_hangsBy : edgeType ≠ .calls := by
  rintro rfl
  cases kind <;> simp [NodeKind.HangsBy] at h

theorem factory_of_isRefEdge (href : Refs.isRefEdge edgeType)
    : (edgeType = .factoryRegisters ∨ edgeType = .factoryOverrides)
        ∧ ∀ symbols, Callers.nodeNameStr symbols kind = none := by
  cases kind <;> simp only [NodeKind.HangsBy] at h <;> rcases h with rfl | rfl <;>
    simp_all [Refs.isRefEdge, Callers.nodeNameStr]

end Factory

section Loaded

variable {parse : Text → Option Cst → Cst} {prepare : Text → Text → Text} {files : List FileRead}
variable {st : InMemoryGraph × GraphExtractor × Dict Text NodeId}
  {nodes : List GraphNode} {name : Text}
variable (h : ProjectState.Loaded parse prepare files st) (hnodes : nodes ~ st.1.allNodes)

include h

theorem expected_eq_nil (nameStr : SymbolTable → NodeKind InternedString → Option Text)
    : expected nameStr st.1 st.2.1.symbols name = [] := by
  rw [expected, List.filterMap_eq_nil_iff]
  intro e he
  obtain ⟨node, hnode, hhangs⟩ := h.hangsBy_of_mem_allEdges he
  have hsite : IsSiteOf st.2.1.symbols name node.kind = false := by
    unfold IsSiteOf
    split
    . next target hkind =>
        exact absurd hkind
          (h.not_callSite (h.reachable.keyed.getNode_eq_some_iff.mp hnode).1 target)
    . rfl
  simp [siteLine, callerLine, hnode, hsite, not_calls_of_hangsBy hhangs]

omit h in
theorem mem_allEdges {log : List Edge} (hlog : st.1.Logs log) {e : Edge} {id : NodeId}
    (he : e ∈ st.1.getOutgoing id ∨ e ∈ st.1.getIncoming id)
    : e ∈ st.1.allEdges := by
  rw [hlog.perm_allEdges.mem_iff]
  exact he.elim (fun he => (hlog.mem_getOutgoing.mp he).1) fun he => (hlog.mem_getIncoming.mp he).1

theorem refs_factory {r : Reference} (hr : r ∈ Refs.found st.1 st.2.1.symbols nodes name)
    : r.edgeType = .factoryRegisters ∨ r.edgeType = .factoryOverrides := by
  obtain ⟨log, hlog⟩ := h.reachable.logs
  have hfactory : ∀ e ∈ st.1.allEdges, Refs.isRefEdge e.edgeType →
      e.edgeType = .factoryRegisters ∨ e.edgeType = .factoryOverrides := by
    intro e he href
    obtain ⟨_, _, hhangs⟩ := h.hangsBy_of_mem_allEdges he
    exact (factory_of_isRefEdge hhangs href).1
  rw [Refs.found, List.mem_append] at hr
  rcases hr with hr | hr
  . obtain ⟨tid, _, hr⟩ := List.mem_flatMap.mp hr
    obtain ⟨e, he, hline⟩ := List.mem_filterMap.mp hr
    split at hline
    . next href =>
      obtain ⟨src, _, rfl⟩ := Option.map_eq_some_iff.mp hline
      exact hfactory e (mem_allEdges hlog (.inr he)) href
    . contradiction
  . obtain ⟨node, _, hr⟩ := List.mem_flatMap.mp hr
    split at hr
    . contradiction
    . obtain ⟨e, he, hline⟩ := List.mem_filterMap.mp hr
      split at hline
      . next href =>
        obtain rfl := Option.some.inj hline
        exact hfactory e (mem_allEdges hlog (.inl he)) href.1
      . contradiction

theorem drivers_eq_nil (symbols : SymbolTable)
    (label : SymbolTable → Option GraphNode → Option Text) (hascending : st.1.Ascending)
    (fileMap : List (Text × NodeId))
    : ∃ bound, ∀ fuel, bound < fuel →
        st.1.driversOfFiles symbols label fileMap name fuel = some ([], []) := by
  obtain ⟨log, hlog⟩ := h.reachable.logs
  have hends : ∀ step ∈ (InMemoryGraph.driverStarts st.1 fileMap).map
      fun target => (⟨[], some target⟩ : Walk.Step NodeId (EdgeType × NodeId)),
      ∀ w, step.next = some w →
        Walk.Terminates (InMemoryGraph.sourceSteps st.1 symbols name) 0 w := by
    intro _ _ w _
    apply hascending.terminates
    intro depth v step hstep w hw
    obtain ⟨e, he, rfl⟩ := List.mem_map.mp hstep
    dsimp only at hw
    split at hw
    . exact ⟨e, he, Option.some.inj hw⟩
    . contradiction
  obtain ⟨walked, bound, hwalked⟩ := Walk.collect_of_terminates hends
  refine ⟨bound, fun fuel hfuel => ?_⟩
  have hnone : ∀ v, InMemoryGraph.seenAt st.1 symbols name v = [] := by
    intro v
    rw [InMemoryGraph.seenAt, List.map_eq_nil_iff, List.filter_eq_nil_iff]
    intro e he
    obtain ⟨_, _, hhangs⟩ := h.hangsBy_of_mem_allEdges (mem_allEdges hlog (.inl he))
    simp [InMemoryGraph.Seen, isDriving_of_hangsBy hhangs]
  obtain ⟨listing, _, hperm⟩ :=
    Forest.perm_of_collect InMemoryGraph.next_sourceSteps (hwalked fuel hfuel)
  have hstarts : ((InMemoryGraph.driverStarts st.1 fileMap).map
      fun target => (⟨[], some target⟩ : Walk.Step NodeId (EdgeType × NodeId))).flatMap
        Walk.Step.output = [] := by
    simp
  have hbelow : (listing.flatMap fun x =>
    (InMemoryGraph.sourceSteps st.1 symbols name x.1 x.2).flatMap Walk.Step.output)
      = [] := by
    simp only [InMemoryGraph.output_sourceSteps, hnone, List.flatMap_eq_nil_iff, implies_true]
  rw [hstarts, hbelow, List.append_nil] at hperm
  have hwrites : walked = [] := hperm.eq_nil
  rw [InMemoryGraph.driversOfFiles_eq, hwalked fuel hfuel, hwrites]
  rfl

include hnodes

theorem results_eq_nil (nameStr : SymbolTable → NodeKind InternedString → Option Text)
    : results nameStr st.1 st.2.1.symbols nodes name = [] := by
  have hperm := perm_results nameStr st.2.1.symbols name h.reachable hnodes
  rw [expected_eq_nil h] at hperm
  exact hperm.eq_nil

theorem callers_eq_nil : Callers.results st.1 st.2.1.symbols nodes name = [] := by
  obtain ⟨log, hlog⟩ := h.reachable.logs
  rw [Callers.results, List.flatMap_eq_nil_iff]
  intro node _
  rw [List.filterMap_eq_nil_iff]
  intro e he
  rw [if_neg]
  rintro ⟨href, htarget⟩
  obtain ⟨target, hstored, hhangs⟩ := h.hangsBy_of_mem_allEdges (mem_allEdges hlog (.inl he))
  obtain ⟨target', hmem, hid⟩ := List.mem_map.mp htarget
  obtain ⟨hmem, hname⟩ := List.mem_filter.mp hmem
  have hstored' : st.1.getNode e.target = some target' :=
    h.reachable.keyed.getNode_eq_some_iff.mpr ⟨hnodes.mem_iff.mp hmem, hid⟩
  rw [hstored, Option.some.injEq] at hstored'
  rw [← hstored', (factory_of_isRefEdge hhangs href).2] at hname
  simp at hname

end Loaded

variable (parse : Text → Option Cst → Cst) (prepare : Text → Text → Text) (files : List FileRead)

/--
In a loaded project nothing is ever called, driven or read: the searches for it find nothing,
whatever the files say.
-/
theorem findsNothing_loadFiles {nodes : List GraphNode}
    (hnodes : nodes ~ (ProjectState.loadFiles parse prepare files).graph.allNodes)
    (fileMap : List (Text × NodeId)) (name : Text)
    : let state := ProjectState.loadFiles parse prepare files
      FindsNothing state.graph state.symbols fileMap nodes name := by
  intro state
  have h := ProjectState.loaded_foldl parse prepare files
  have hascending := ProjectState.loadFiles_ascending parse prepare files
  have hdrivers : ∀ label, ∃ bound, ∀ fuel, bound < fuel →
      state.graph.driversOfFiles state.symbols label fileMap name fuel = some ([], []) :=
    fun label => drivers_eq_nil h state.symbols label hascending fileMap
  obtain ⟨bound, hcli⟩ := hdrivers InMemoryGraph.driverLabelCli
  obtain ⟨bound', hmcp⟩ := hdrivers InMemoryGraph.driverLabelMcp
  have hcalls : ∀ nameStr, results nameStr state.graph state.symbols nodes name = [] :=
    results_eq_nil h hnodes
  have hcallers : Callers.results state.graph state.symbols nodes name = [] :=
    callers_eq_nil h hnodes
  constructor
  . simp only [CmdCalls.cmdCalls, CmdCalls.results, hcalls, List.isEmpty_nil, if_true]
  . simp only [Callees.run, Callees.results, hcalls, List.isEmpty_nil, if_true]
  . simp only [Callers.run, hcallers, List.isEmpty_nil, or_true, if_true]
  . exact fun r hr => refs_factory h hr
  . refine ⟨max bound bound', fun fuel hfuel => ⟨?_, ?_⟩⟩
    . rw [InMemoryGraph.cmdDrivers, hcli fuel (by omega), Option.map_some]
    . rw [InMemoryGraph.driversTool, hmcp fuel (by omega), Option.map_some,
        InMemoryGraph.driversToolText]
      rfl

theorem findsNothing_loadFiles_generated
    : let state := ProjectState.loadOrBuild ProjectState.parseGenerated [ProjectState.generatedFile]
      FindsNothing state.graph state.symbols state.fileMap.toList state.graph.allNodes
      "cell".toList :=
  findsNothing_loadFiles ProjectState.parseGenerated (fun source _ => source)
    [ProjectState.generatedFile] (.refl _) _ _

end CallSites
end HdlGraph
