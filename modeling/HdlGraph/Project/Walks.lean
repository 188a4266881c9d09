import HdlGraph.Library.Walk
import HdlGraph.Project.Index
import Mathlib.Algebra.Order.Group.Nat

/-!
This module contains the recursive walks over the graph of a project: the printed trees, the search
for drivers and readers and the search for the containing module. None of them remembers where it
was; they end because every edge of an extracted graph goes from a smaller to a larger id.
-/

namespace HdlGraph

def nameOr (symbols : SymbolTable) (name : InternedString) : Text :=
  (symbols.resolve name).getD "?".toList

def indent (depth : Nat) : Text := (List.replicate depth "  ".toList).flatten

namespace InMemoryGraph

/-! ## The walks -/

def treeLabel (symbols : SymbolTable) : NodeKind InternedString → Option Text
  | .module name => some ("module ".toList ++ nameOr symbols name)
  | .moduleInstance name moduleType =>
    some (nameOr symbols name ++ ": ".toList ++ nameOr symbols moduleType)
  | .signalDecl name _ => some (nameOr symbols name)
  | .modulePort name _ => some ("port ".toList ++ nameOr symbols name)
  | .alwaysBlock _ => some "always".toList
  | .assignment => some "assign".toList
  | .class name _ => some ("class ".toList ++ nameOr symbols name)
  | .package name => some ("package ".toList ++ nameOr symbols name)
  | .function name _ => some ("function ".toList ++ nameOr symbols name)
  | _ => none

def treeLabelMd (symbols : SymbolTable) : NodeKind InternedString → Option Text
  | .moduleInstance name moduleType =>
    some ("`".toList ++ nameOr symbols name ++ "` : `".toList ++ nameOr symbols moduleType
      ++ "`".toList)
  | .module name => some ("module `".toList ++ nameOr symbols name ++ "`".toList)
  | _ => none

def treeSteps (g : InMemoryGraph) (label : NodeKind InternedString → Option Text) (mark : Text)
    (depth : Nat) (nodeId : NodeId) : List (Walk.Step NodeId Text) :=
  (g.getOutgoing nodeId).filterMap fun e => do
    let child ← g.getNode e.target
    let label ← label child.kind
    return { output := [indent depth ++ mark ++ label], next := some e.target }

-- `print_tree` of the CLI and of the MCP server, which differ in where the lines go
def printTree (g : InMemoryGraph) (symbols : SymbolTable)
    : Nat → Nat → NodeId → Option (List Text) :=
  Walk.run (g.treeSteps (treeLabel symbols) "|-- ".toList)

def printTreeMd (g : InMemoryGraph) (symbols : SymbolTable)
    : Nat → Nat → NodeId → Option (List Text) :=
  Walk.run (g.treeSteps (treeLabelMd symbols) "- ".toList)

def matchedName (symbols : SymbolTable) : NodeKind InternedString → Option Text
  | .module name | .class name _ | .package name | .interface name | .function name
      _ | .signalDecl name _
  | .modulePort name _ | .moduleInstance name _ | .property name | .variableRef
      name | .callSite name
  | .method name _ | .tlmPort name _ => symbols.resolve name
  | _ => none

def nodeLabel (symbols : SymbolTable) : NodeKind InternedString → Text
  | .module name => "module ".toList ++ nameOr symbols name
  | .moduleInstance name moduleType =>
    nameOr symbols name ++ ": ".toList ++ nameOr symbols moduleType
  | .signalDecl name _ | .modulePort name _ => nameOr symbols name
  | .class name _ => "class ".toList ++ nameOr symbols name
  | .package name => "package ".toList ++ nameOr symbols name
  | .function name _ => "function ".toList ++ nameOr symbols name
  | .interface name => "interface ".toList ++ nameOr symbols name
  | _ => "?".toList

def driverLabelCli (symbols : SymbolTable) (node : Option GraphNode) : Option Text :=
  node.map fun node => nodeLabel symbols node.kind

def driverLabelMcp (symbols : SymbolTable) (node : Option GraphNode) : Option Text :=
  some ((node.bind fun node => matchedName symbols node.kind).getD "?".toList)

def driverSteps (g : InMemoryGraph) (symbols : SymbolTable)
    (label : SymbolTable → Option GraphNode → Option Text) (signal : Text) (_depth : Nat)
    (nodeId : NodeId)
    : List (Walk.Step NodeId (EdgeType × Text)) :=
  (g.getOutgoing nodeId).map fun e =>
    let found :=
      if e.edgeType = .drives ∨ e.edgeType = .references then
        match g.getNode e.target with
        | some target =>
          if matchedName symbols target.kind = some signal then
            (label symbols (g.getNode nodeId)).toList.map fun l => (e.edgeType, l)
          else []
        | none => []
      else []
    { output := found, next := if e.edgeType = .contains then some e.target else none }

def driversAndReaders (found : List (EdgeType × Text)) : List Text × List Text :=
  ((found.filter fun x => x.1 = .drives).map Prod.snd,
    (found.filter fun x => x.1 = .references).map Prod.snd)

def findDriversRecursive (g : InMemoryGraph) (symbols : SymbolTable)
    (label : SymbolTable → Option GraphNode → Option Text) (signal : Text) (fuel : Nat)
    (nodeId : NodeId)
    : Option (List Text × List Text) :=
  (Walk.run (g.driverSteps symbols label signal) fuel 0 nodeId).map driversAndReaders

-- One visit of `find_containing_module`: the first `Contains` edge whose source is stored decides
def containingStep (g : InMemoryGraph) (symbols : SymbolTable) (nodeId : NodeId) : Text ⊕ NodeId :=
  let parent? := (g.getIncoming nodeId).findSome? fun e =>
    if e.edgeType = .contains then (g.getNode e.source).map fun parent => (e, parent) else none
  match parent? with
  | none => .inl "?".toList
  | some (e, parent) =>
    match parent.kind with
    | .module name => .inl (nameOr symbols name)
    | _ => .inr e.source

def findContainingModule (g : InMemoryGraph) (symbols : SymbolTable) : Nat → NodeId → Option Text :=
  Walk.climb (g.containingStep symbols)

/-! ## Termination -/

def Ascending (g : InMemoryGraph) : Prop :=
  ∃ log : List Edge, Logs g log ∧ ∀ e ∈ log, e.source < e.target

structure WalksEnd (g : InMemoryGraph) : Prop where
  acyclic : ∀ nodeId,
    ¬Relation.TransGen (fun source target => ∃ e ∈ g.allEdges, e.source = source
      ∧ e.target = target) nodeId nodeId
  printTree : ∀ symbols depth nodeId, ∃ lines bound, ∀ fuel, bound < fuel →
    g.printTree symbols fuel depth nodeId = some lines
  printTreeMd : ∀ symbols depth nodeId, ∃ lines bound, ∀ fuel, bound < fuel →
    g.printTreeMd symbols fuel depth nodeId = some lines
  findDriversCli : ∀ symbols signal nodeId, ∃ found bound, ∀ fuel, bound < fuel →
    g.findDriversRecursive symbols driverLabelCli signal fuel nodeId = some found
  findDriversMcp : ∀ symbols signal nodeId, ∃ found bound, ∀ fuel, bound < fuel →
    g.findDriversRecursive symbols driverLabelMcp signal fuel nodeId = some found
  findContainingModule : ∀ symbols nodeId, ∃ name bound, ∀ fuel, bound < fuel →
    g.findContainingModule symbols fuel nodeId = some name

namespace Ascending

variable {g : InMemoryGraph}

theorem source_lt_target (h : Ascending g) {v : NodeId} {e : Edge} (he : e ∈ g.getOutgoing v)
    : v < e.target := by
  have ⟨log, hlog, hlt⟩ := h
  have ⟨hmem, hsource⟩ := hlog.mem_getOutgoing.mp he
  exact hsource ▸ hlt e hmem

theorem lt_of_incoming (h : Ascending g) {v : NodeId} {e : Edge} (he : e ∈ g.getIncoming v)
    : e.source < v := by
  have ⟨log, hlog, hlt⟩ := h
  have ⟨hmem, htarget⟩ := hlog.mem_getIncoming.mp he
  exact htarget ▸ hlt e hmem

theorem exists_bound (h : Ascending g) : ∃ bound, ∀ v, ∀ e ∈ g.getOutgoing v, e.target < bound := by
  have ⟨log, hlog, _⟩ := h
  refine ⟨(log.map Edge.target).sum + 1, ?_⟩
  intro v e he
  have hmem := (hlog.mem_getOutgoing.mp he).1
  exact Nat.lt_succ_of_le (List.le_sum_of_mem (List.mem_map_of_mem hmem))

theorem terminates (h : Ascending g) {β : Type} {steps : Nat → NodeId → List (Walk.Step NodeId β)}
    (hsteps : ∀ depth v, ∀ step ∈ steps depth v, ∀ w, step.next = some w →
      ∃ e ∈ g.getOutgoing v, e.target = w) (depth : Nat) (v : NodeId)
    : Walk.Terminates steps depth v := by
  have ⟨bound, hbound⟩ := h.exists_bound
  refine Walk.terminates_of_rank (fun v => bound - v) ?_ depth v
  intro depth v step hstep w hw
  have ⟨e, he, htarget⟩ := hsteps depth v step hstep w hw
  have hlt := h.source_lt_target he
  have hle := hbound v e he
  subst htarget
  exact Nat.sub_lt_sub_left (Nat.lt_trans hlt hle) hlt

theorem terminates_treeSteps (h : Ascending g) (label : NodeKind InternedString → Option Text)
    (mark : Text) (depth : Nat) (v : NodeId)
    : Walk.Terminates (g.treeSteps label mark) depth v := by
  apply h.terminates
  intro depth v step hstep w hw
  simp only [treeSteps, List.mem_filterMap, Option.bind_eq_bind, Option.bind_eq_some_iff,
    Option.pure_def, Option.some.injEq] at hstep
  have ⟨e, he, _, _, _, _, heq⟩ := hstep
  rw [← heq, Option.some.injEq] at hw
  exact ⟨e, he, hw⟩

theorem terminates_driverSteps (h : Ascending g) (symbols : SymbolTable)
    (label : SymbolTable → Option GraphNode → Option Text) (signal : Text) (v : NodeId)
    : ∃ found bound, ∀ fuel, bound < fuel →
        g.findDriversRecursive symbols label signal fuel v = some found := by
  have hwalk : Walk.Terminates (g.driverSteps symbols label signal) 0 v := by
    apply h.terminates
    intro depth v step hstep w hw
    have ⟨e, he, heq⟩ := List.mem_map.mp hstep
    rw [← heq] at hw
    simp only at hw
    split at hw
    . exact ⟨e, he, Option.some.inj hw⟩
    . simp at hw
  have ⟨out, bound, hout⟩ := hwalk
  refine ⟨driversAndReaders out, bound, ?_⟩
  intro fuel hfuel
  rw [findDriversRecursive, hout fuel hfuel, Option.map_some]

theorem climbTerminates_containingStep (h : Ascending g) (symbols : SymbolTable) (v : NodeId)
    : Walk.ClimbTerminates (g.containingStep symbols) v := by
  refine Walk.climbTerminates_of_rank id ?_ v
  intro v w hstep
  unfold containingStep at hstep
  dsimp only at hstep
  split at hstep
  . simp at hstep
  . next e parent hparent =>
    have ⟨e', he', hsome⟩ := List.exists_of_findSome?_eq_some hparent
    have hsource : e'.source = e.source := by
      split at hsome
      . have ⟨_, _, heq⟩ := Option.map_eq_some_iff.mp hsome
        rw [(Prod.mk.inj heq).1]
      . simp at hsome
    split at hstep
    . simp at hstep
    . rw [Sum.inr.injEq] at hstep
      rw [← hstep, ← hsource]
      exact h.lt_of_incoming he'

theorem walksEnd (h : Ascending g) : WalksEnd g where
  acyclic := by
    have ⟨log, hlog, hlt⟩ := h
    apply Walk.acyclic_of_rank id
    intro v w ⟨e, he, hsource, htarget⟩
    rw [← hsource, ← htarget]
    exact hlt e (hlog.perm_allEdges.mem_iff.mp he)
  printTree := fun symbols depth nodeId => h.terminates_treeSteps (treeLabel symbols) _ depth nodeId
  printTreeMd :=
    fun symbols depth nodeId => h.terminates_treeSteps (treeLabelMd symbols) _ depth nodeId
  findDriversCli := fun symbols => h.terminates_driverSteps symbols driverLabelCli
  findDriversMcp := fun symbols => h.terminates_driverSteps symbols driverLabelMcp
  findContainingModule := h.climbTerminates_containingStep

/-! ## The graphs of projects -/

theorem new : Ascending new := ⟨[], Logs.new, by simp⟩

theorem addExtracted (h : Ascending g) (ex : GraphExtractor) (tree : Cst) (fileId : Nat)
    : Ascending ((g.addNodes (ex.extract tree fileId).1.1).addEdges
        (ex.extract tree fileId).1.2) := by
  have ⟨log, hlog, hlt⟩ := h
  refine ⟨log ++ (ex.extract tree fileId).1.2, (hlog.addNodes _).addEdges _, ?_⟩
  intro e he
  rw [List.mem_append, (ex.extract_extracts tree fileId).edges] at he
  cases he with
  | inl he => exact hlt e he
  | inr he => exact (FileOutline.mem_edgesAt he).2.1

theorem applyTo (h : Ascending g) (ex : GraphExtractor) (tree : Cst) (fileId : Nat)
    (oldNodeIds : List NodeId) (oldEdges : List Edge)
    : Ascending ((ex.extractChangeset tree fileId oldNodeIds oldEdges).1.applyTo g) := by
  have ⟨log, hlog, hlt⟩ := h
  refine ⟨_, ChangeSet.logs_applyTo _ hlog, ?_⟩
  intro e he
  rw [GraphExtractor.extractChangeset_addedEdges, List.mem_append,
    (ex.extract_extracts tree fileId).edges] at he
  cases he with
  | inl he => exact hlt e (List.mem_filter.mp he).1
  | inr he => exact (FileOutline.mem_edgesAt he).2.1

end Ascending

end InMemoryGraph

open InMemoryGraph

theorem ProjectState.loadFiles_ascending (parse : Text → Option Cst → Cst)
    (prepare : Text → Text → Text) (files : List FileRead)
    : Ascending (loadFiles parse prepare files).graph := by
  have hfold : ∀ state : InMemoryGraph × GraphExtractor × Dict Text NodeId, Ascending state.1 →
      Ascending (files.foldl (loadFile parse prepare) state).1 := by
    intro state h
    induction files generalizing state with
    | nil => exact h
    | cons file files ih =>
      apply ih
      unfold loadFile
      cases file.content with
      | none => exact h
      | some content => exact h.addExtracted _ _ _
  exact hfold _ .new

namespace IndexedProject

variable {H : Type} [DecidableEq H] (parse : Text → Option Cst → Cst) (computeFileHash : Text → H)

omit [DecidableEq H] in
theorem indexProject_ascending (files : List FileRead)
    : Ascending (indexProject parse computeFileHash files).graph := by
  have hfold : ∀ state : IndexedProject H, Ascending state.graph →
      Ascending (files.foldl (indexFile parse computeFileHash) state).graph := by
    intro state h
    induction files generalizing state with
    | nil => exact h
    | cons file files ih =>
      apply ih
      unfold indexFile
      split
      . exact h
      . exact h.addExtracted _ _ _
  exact hfold _ .new

theorem updateFile_ascending {state : IndexedProject H} (h : Ascending state.graph)
    (file : FileRead)
    : Ascending (updateFile parse computeFileHash state file).graph := by
  unfold updateFile
  split
  . exact h
  . dsimp only
    split
    . exact h
    . exact h.applyTo _ _ _ _ _

theorem cmdIndexIncremental_ascending {state : IndexedProject H} (h : Ascending state.graph)
    (changedFiles : List FileRead)
    : Ascending (cmdIndexIncremental parse computeFileHash state changedFiles).graph := by
  unfold cmdIndexIncremental
  induction changedFiles generalizing state with
  | nil => exact h
  | cons file files ih => exact ih (updateFile_ascending parse computeFileHash h file)

theorem indexAndUpdate_ascending (files : List FileRead) (rounds : List (List FileRead))
    : Ascending (indexAndUpdate parse computeFileHash files rounds).graph := by
  have hfold : ∀ state : IndexedProject H, Ascending state.graph →
      Ascending (rounds.foldl (cmdIndexIncremental parse computeFileHash) state).graph := by
    intro state h
    induction rounds generalizing state with
    | nil => exact h
    | cons round rounds ih =>
      exact ih _ (cmdIndexIncremental_ascending parse computeFileHash h round)
  exact hfold _ (indexProject_ascending parse computeFileHash files)

end IndexedProject

/--
Extraction makes edges from smaller to larger ids of its own, and therefore all walks end over all
graphs that the commands build and update.
-/
theorem walks_end {H : Type} [DecidableEq H] (parse : Text → Option Cst → Cst)
    (computeFileHash : Text → H) (preprocess : Text → Text → Text) (files : List FileRead)
    (rounds : List (List FileRead))
    : (∀ (ex : GraphExtractor) (tree : Cst) (fileId : Nat), ∀ e ∈ (ex.extract tree fileId).1.2,
        ex.nextId ≤ e.source ∧ e.source < e.target ∧ e.target < (ex.extract tree fileId).2.nextId)
        ∧
      WalksEnd (ProjectState.loadOrBuild parse files).graph
        ∧
      WalksEnd (ProjectState.loadProject parse preprocess files).graph
        ∧
      WalksEnd (IndexedProject.indexAndUpdate parse computeFileHash files rounds).graph := by
  refine ⟨?_, ?_, ?_, ?_⟩
  . intro ex tree fileId e he
    have hextract := ex.extract_extracts tree fileId
    rw [hextract.edges] at he
    rw [hextract.nextId]
    exact FileOutline.mem_edgesAt he
  . exact (ProjectState.loadFiles_ascending parse _ files).walksEnd
  . exact (ProjectState.loadFiles_ascending parse preprocess files).walksEnd
  . exact (IndexedProject.indexAndUpdate_ascending parse computeFileHash files rounds).walksEnd

end HdlGraph
