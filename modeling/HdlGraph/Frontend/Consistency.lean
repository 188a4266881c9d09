import HdlGraph.Frontend.Check
import HdlGraph.Frontend.Instances
import HdlGraph.Project.Declared
import HdlGraph.Project.Walks

/-!
This module contains the consistency check of both frontends as a whole. On a loaded project it
finds exactly the references to modules and classes that no file declares.
-/

namespace HdlGraph

open scoped List

namespace Consistency

/-! ## What is looked for -/

section Findings

variable {ν : Type} (g : InMemoryGraph) (symbols : SymbolTable)

def moduleNameOf (resolve : ν → Option Text) : NodeKind ν → Option Text
  | .module name => resolve name
  | _ => none

def classNameOf (resolve : ν → Option Text) : NodeKind ν → Option Text
  | .class name _ => resolve name
  | _ => none

def definedModules (nodes : List GraphNode) : List Text :=
  nodes.filterMap fun node => moduleNameOf symbols.resolve node.kind

def definedClasses (nodes : List GraphNode) : List Text :=
  nodes.filterMap fun node => classNameOf symbols.resolve node.kind

structure UnresolvedInstance where
  inst : Text
  moduleType : Text
  deriving DecidableEq, Repr

def UnresolvedInstance.line (i : UnresolvedInstance) (parentModule : Text) : Text :=
  "  ".toList ++ i.inst ++ ": ".toList ++ i.moduleType ++ " (in module ".toList
    ++ parentModule ++ ")".toList

-- `nameOf` gives a mark for a name that is missing
def unresolvedInstance (nameOf : ν → Text) (defined : List Text)
    : NodeKind ν → Option UnresolvedInstance
  | .moduleInstance name moduleType =>
    if nameOf moduleType ∈ defined then none else some ⟨nameOf name, nameOf moduleType⟩
  | _ => none

def unresolvedInstances (fuel : Nat) (nodes : List GraphNode) : Option (List Text) :=
  let found := nodes.filterMap fun node =>
    (unresolvedInstance (nameOr symbols) (definedModules symbols nodes) node.kind).map fun i =>
      (i, node.id)
  found.mapM fun x => (g.findContainingModule symbols fuel x.2).map x.1.line

def isOrphan (node : GraphNode) : Bool :=
  node.kind ≠ .sourceFile && (g.getOutgoing node.id).isEmpty && (g.getIncoming node.id).isEmpty

def orphanLine (label : GraphNode → Text) (node : GraphNode) : Text :=
  "  ".toList ++ label node ++ " (id: ".toList ++ (Nat.repr node.id).toList ++ ")".toList

structure UnresolvedParent where
  name : Text
  parent : Text
  deriving DecidableEq, Repr

def UnresolvedParent.line (p : UnresolvedParent) : Text :=
  "  ".toList ++ p.name ++ ": parent '".toList ++ p.parent ++ "' not found".toList

def unresolvedParent (nameOf : ν → Text) (defined : List Text)
    : NodeKind ν → Option UnresolvedParent
  | .class name (some parent) =>
    if nameOf parent ∈ defined then none else some ⟨nameOf name, nameOf parent⟩
  | _ => none

def unresolvedParents (nodes : List GraphNode) : List UnresolvedParent :=
  nodes.filterMap fun node =>
    unresolvedParent (nameOr symbols) (definedClasses symbols nodes) node.kind

end Findings

structure Report where
  dangling : List Text
  instances : List Text
  orphans : List Text
  parents : List Text

def Report.totalIssues (r : Report) : Nat :=
  r.dangling.length + r.instances.length + r.orphans.length + r.parents.length

def issues (r : Report) : Text := (Nat.repr r.totalIssues).toList

end Consistency

open Consistency

/-! ## The two commands -/

namespace CmdCheck

variable (g : InMemoryGraph) (symbols : SymbolTable)

-- The labels are those of the command line
def nodeLabel (node : GraphNode) : Text := InMemoryGraph.nodeLabel symbols node.kind

def report (fuel : Nat) (nodes : List GraphNode) : Option Report :=
  (unresolvedInstances g symbols fuel nodes).map fun instances => {
    dangling := (cmdCheckDangling g nodes).2
    instances
    orphans := (nodes.filter (isOrphan g)).map (orphanLine (nodeLabel symbols))
    parents := (unresolvedParents symbols nodes).map UnresolvedParent.line
  }

def printSection (title : String) (details : List Text) : Text :=
  println (title.toList ++ ": ".toList ++ (Nat.repr details.length).toList)
    ++ details.flatMap println

def printReport (ci : Bool) (r : Report) : Text :=
  println "Graph Consistency Check".toList ++ println "=======================".toList ++ println []
    ++ printSection "Dangling edges" r.dangling
    ++ printSection "Unresolved instances" r.instances
    ++ printSection "Orphan nodes" r.orphans
    ++ printSection "Unresolved parents" r.parents
    ++ println []
    ++ if r.totalIssues = 0 then println "All checks passed".toList
      else
        println ("Summary: ".toList ++ issues r ++ " issue(s) found".toList)
          ++ if ci then
            println [] ++ println
                ("WARNING: CI mode — ".toList ++ issues r ++ " issue(s) detected.".toList)
              ++ println "CI exit behavior not yet implemented; returning Ok(()) for now.".toList
          else []

def cmdCheck (ci : Bool) (fuel : Nat) (nodes : List GraphNode) : Option Text :=
  (report g symbols fuel nodes).map (printReport ci)

end CmdCheck

namespace CheckTool

variable (g : InMemoryGraph) (symbols : SymbolTable)

-- The labels are those of the helpers, which have the id where a name is missing
def nodeLabel (node : GraphNode) : Text :=
  let name := node.nameStr symbols
  match node.kind with
  | .module _ | .class _ _ | .package _ | .interface _ | .function _ _ =>
    nodeKindStr node.kind ++ " ".toList ++ name.getD "?".toList
  | .moduleInstance _ moduleType => name.getD "?".toList ++ ": ".toList ++ nameOr symbols moduleType
  | .signalDecl _ _ | .modulePort _ _ | .property _ | .variableRef _ | .method _ _ | .tlmPort _
      _ | .sequenceDecl _
  | .propertyDecl _ | .coverGroup _ | .coverPoint _ | .modport _ | .configBlock _ =>
    name.getD (idLabel node.id)
  | _ => nodeKindStr node.kind ++ " ".toList ++ idLabel node.id

def report (fuel : Nat) (nodes : List GraphNode) : Option Report :=
  (unresolvedInstances g symbols fuel nodes).map fun instances => {
    dangling := (runDangling g nodes).2
    instances
    orphans := (nodes.filter (isOrphan g)).map (orphanLine (nodeLabel symbols))
    parents := (unresolvedParents symbols nodes).map UnresolvedParent.line
  }

def sectionText (title : String) (details : List Text) : Text :=
  title.toList ++ ": ".toList ++ (Nat.repr details.length).toList ++ ['\n']
    ++ details.flatMap fun d => d ++ ['\n']

def reportText (r : Report) : Text :=
  "Graph Consistency Check".toList ++ ['\n'] ++ "=======================".toList ++ ['\n', '\n']
    ++ sectionText "Dangling edges" r.dangling
    ++ sectionText "Unresolved instances" r.instances
    ++ sectionText "Orphan nodes" r.orphans
    ++ sectionText "Unresolved parents" r.parents
    ++ ['\n']
    ++ if r.totalIssues = 0 then "All checks passed".toList ++ ['\n']
      else "Summary: ".toList ++ issues r ++ " issue(s) found".toList ++ ['\n']

def run (fuel : Nat) (nodes : List GraphNode) : Option Text :=
  (report g symbols fuel nodes).map reportText

end CheckTool

/-! ## What they print -/

theorem CmdCheck.printSection_eq (title : String) (details : List Text)
    : printSection title details = CheckTool.sectionText title details :=
  rfl

theorem CmdCheck.printReport_eq (r : Report) : printReport false r = CheckTool.reportText r := by
  have hline : ∀ s, println s = s ++ ['\n'] := fun _ => rfl
  unfold printReport CheckTool.reportText
  simp only [printSection_eq, hline, Bool.false_eq_true, if_false, List.nil_append, List.append_nil,
    List.append_assoc, List.cons_append]

namespace Consistency

def passed : Text := "passed".toList ++ ['\n']

theorem passed_suffix_append {front back : Text} (hlength : 7 ≤ back.length)
    : passed <:+ front ++ back ↔ passed <:+ back := by
  constructor
  . intro h
    exact List.suffix_of_suffix_length_le h (List.suffix_append front back) hlength
  . intro h
    exact h.trans (List.suffix_append front back)

theorem passed_suffix_printReport (ci : Bool) (r : Report) : passed <:+ CmdCheck.printReport ci r
    ↔ r.totalIssues = 0 := by
  unfold CmdCheck.printReport
  by_cases hnone : r.totalIssues = 0
  . rw [if_pos hnone, passed_suffix_append (by decide)]
    exact iff_of_true ⟨"All checks ".toList, by decide⟩ hnone
  . refine iff_of_false ?_ hnone
    rw [if_neg hnone, ← List.append_assoc]
    cases ci with
    | false =>
      have hsummary : println ("Summary: ".toList ++ issues r ++ " issue(s) found".toList)
          = "Summary: ".toList ++ issues r ++ println " issue(s) found".toList :=
        List.append_assoc _ _ _
      rw [if_neg Bool.false_ne_true, List.append_nil, hsummary, ← List.append_assoc,
        passed_suffix_append (by decide)]
      decide
    | true =>
      rw [if_pos rfl, ← List.append_assoc, passed_suffix_append (by decide)]
      decide

/-! ## Loaded projects -/

section Reading

variable {symbols : SymbolTable} {kind : NodeKind InternedString} {named : NodeKind Text}
  (h : kind.resolve symbols = some named)

include h

theorem moduleNameOf_of_resolve : moduleNameOf symbols.resolve kind = moduleNameOf some named := by
  cases NodeKind.says_of_resolve h <;> simp [moduleNameOf, *]

theorem classNameOf_of_resolve : classNameOf symbols.resolve kind = classNameOf some named := by
  cases NodeKind.says_of_resolve h <;> simp [classNameOf, *]

theorem unresolvedInstance_of_resolve {defined defined' : List Text}
    (hdefined : ∀ name, name ∈ defined ↔ name ∈ defined')
    : unresolvedInstance (nameOr symbols) defined kind = unresolvedInstance id defined' named := by
  cases NodeKind.says_of_resolve h <;> simp [unresolvedInstance, nameOr, *]

theorem unresolvedParent_of_resolve {defined defined' : List Text}
    (hdefined : ∀ name, name ∈ defined ↔ name ∈ defined')
    : unresolvedParent (nameOr symbols) defined kind = unresolvedParent id defined' named := by
  cases NodeKind.says_of_resolve h <;> simp [unresolvedParent, nameOr, *]

end Reading

section Declared

variable (kinds : List (NodeKind Text))

def declaredModules : List Text := kinds.filterMap (moduleNameOf some)

def declaredClasses : List Text := kinds.filterMap (classNameOf some)

def missingModules : List UnresolvedInstance :=
  kinds.filterMap (unresolvedInstance id (declaredModules kinds))

def missingParents : List UnresolvedParent :=
  kinds.filterMap (unresolvedParent id (declaredClasses kinds))

/-- Every module with an instance is declared, and so is every class that another one extends. -/
structure Closed : Prop where
  modules : ∀ name moduleType, .moduleInstance name moduleType ∈ kinds → .module moduleType ∈ kinds
  classes : ∀ name parent, .class name (some parent) ∈ kinds →
    ∃ grandparent, .class parent grandparent ∈ kinds

variable {kinds}

theorem mem_declaredModules_iff {name : Text} : name ∈ declaredModules kinds
    ↔ .module name ∈ kinds := by
  rw [declaredModules, List.mem_filterMap]
  constructor
  . rintro ⟨kind, hkind, hname⟩
    cases kind with
    | module name' => exact Option.some.inj hname ▸ hkind
    | _ => simp [moduleNameOf] at hname
  . intro hmem
    exact ⟨_, hmem, rfl⟩

theorem mem_declaredClasses_iff {name : Text} : name ∈ declaredClasses kinds
    ↔ ∃ parent, .class name parent ∈ kinds := by
  rw [declaredClasses, List.mem_filterMap]
  constructor
  . rintro ⟨kind, hkind, hname⟩
    cases kind with
    | «class» name' parent => exact ⟨parent, Option.some.inj hname ▸ hkind⟩
    | _ => simp [classNameOf] at hname
  . rintro ⟨parent, hmem⟩
    exact ⟨_, hmem, rfl⟩

theorem closed_iff : missingModules kinds = [] ∧ missingParents kinds = [] ↔ Closed kinds := by
  rw [missingModules, missingParents, List.filterMap_eq_nil_iff, List.filterMap_eq_nil_iff]
  constructor
  . rintro ⟨hmodules, hclasses⟩
    constructor
    . intro name moduleType hmem
      have := hmodules _ hmem
      rw [← mem_declaredModules_iff]
      simpa [unresolvedInstance] using this
    . intro name parent hmem
      have := hclasses _ hmem
      rw [← mem_declaredClasses_iff]
      simpa [unresolvedParent] using this
  . intro hclosed
    constructor
    . intro kind hkind
      cases kind with
      | moduleInstance name moduleType =>
        have := mem_declaredModules_iff.mpr (hclosed.modules name moduleType hkind)
        simp [unresolvedInstance, this]
      | _ => rfl
    . intro kind hkind
      cases kind with
      | «class» name parent =>
        cases parent with
        | none => rfl
        | some parent =>
          have := mem_declaredClasses_iff.mpr (hclosed.classes name parent hkind)
          simp [unresolvedParent, this]
      | _ => rfl

end Declared

/-- What is reported are the instances and the parents that are not declared. -/
structure FindsMissing (g : InMemoryGraph) (symbols : SymbolTable) (kinds : List (NodeKind Text))
    (r : Report) : Prop where
  dangling : r.dangling = []
  instances : ∃ (found : List (UnresolvedInstance × NodeId)) (parentModule : NodeId → Text),
    found.map Prod.fst ~ missingModules kinds
      ∧ (∀ id, Walk.Ends (g.containingStep symbols) id (parentModule id))
      ∧ r.instances = found.map fun x => x.1.line (parentModule x.2)
  orphans : r.orphans = []
  parents : r.parents ~ (missingParents kinds).map UnresolvedParent.line

theorem FindsMissing.totalIssues_eq_zero_iff {g : InMemoryGraph} {symbols : SymbolTable}
    {kinds : List (NodeKind Text)} {r : Report} (h : FindsMissing g symbols kinds r)
    : r.totalIssues = 0 ↔ Closed kinds := by
  obtain ⟨found, parentModule, hfound, _, hinstances⟩ := h.instances
  have hlength : r.instances.length = (missingModules kinds).length := by
    rw [hinstances, List.length_map, ← hfound.length_eq, List.length_map]
  have hparents : r.parents.length = (missingParents kinds).length := by
    rw [h.parents.length_eq, List.length_map]
  rw [← closed_iff, ← List.length_eq_zero_iff, ← List.length_eq_zero_iff, Report.totalIssues,
    h.dangling, h.orphans, hlength, hparents]
  simp

namespace Loaded

open ProjectState

variable {parse : Text → Option Cst → Cst} {prepare : Text → Text → Text} {files : List FileRead}
variable {st : InMemoryGraph × GraphExtractor × Dict Text NodeId} {nodes : List GraphNode}
variable (h : Loaded parse prepare files st) (hnodes : nodes ~ st.1.allNodes)

include h hnodes

theorem dangling_eq_nil
    : (edgesOfNodes st.1 nodes).filter (isDangling (nodes.map GraphNode.id)) = [] := by
  rw [List.filter_eq_nil_iff]
  intro e he
  obtain ⟨node, hnode, he⟩ := List.mem_flatMap.mp he
  have ⟨hmem, hsource⟩ := h.reachable.mem_getOutgoing.mp he
  obtain ⟨target, htarget⟩ := h.target_stored hmem
  have hstored : e.target ∈ nodes.map GraphNode.id := by
    rw [mem_map_id_iff h.reachable.keyed hnodes, htarget]
    rfl
  have hleaves : e.source ∈ nodes.map GraphNode.id := hsource ▸ List.mem_map_of_mem hnode
  simp [isDangling, hstored, hleaves]

theorem orphans_eq_nil : nodes.filter (isOrphan st.1) = [] := by
  rw [List.filter_eq_nil_iff]
  intro node hnode
  by_cases hkind : node.kind = .sourceFile
  . simp [isOrphan, hkind]
  . obtain ⟨e, he⟩ := h.exists_incoming (hnodes.mem_iff.mp hnode) hkind
    have hne : (st.1.getIncoming node.id).isEmpty = false :=
      List.isEmpty_eq_false_iff.mpr (List.ne_nil_of_mem he)
    simp [isOrphan, hne]

theorem mem_definedModules_iff (name : Text)
    : name ∈ definedModules st.2.1.symbols nodes
        ↔ name ∈ declaredModules (declaredKinds parse prepare files) :=
  ((hnodes.filterMap _).trans (h.perm_filterMap_kinds fun _ _ => moduleNameOf_of_resolve)).mem_iff

theorem mem_definedClasses_iff (name : Text)
    : name ∈ definedClasses st.2.1.symbols nodes
        ↔ name ∈ declaredClasses (declaredKinds parse prepare files) :=
  ((hnodes.filterMap _).trans (h.perm_filterMap_kinds fun _ _ => classNameOf_of_resolve)).mem_iff

theorem perm_unresolvedParents
    : unresolvedParents st.2.1.symbols nodes ~ missingParents (declaredKinds parse prepare files) :=
  (hnodes.filterMap _).trans
    (h.perm_filterMap_kinds fun _ _ hresolve =>
      unresolvedParent_of_resolve hresolve (mem_definedClasses_iff h hnodes))

theorem perm_unresolvedInstances
    : (nodes.filterMap fun node =>
        (unresolvedInstance (nameOr st.2.1.symbols) (definedModules st.2.1.symbols nodes)
          node.kind).map fun i =>
          (i, node.id)).map Prod.fst
      ~ missingModules (declaredKinds parse prepare files) := by
  rw [List.map_filterMap]
  simp only [Option.map_map, Function.comp_def, Option.map_id_fun', id_eq]
  exact (hnodes.filterMap _).trans
    (h.perm_filterMap_kinds fun _ _ hresolve =>
      unresolvedInstance_of_resolve hresolve (mem_definedModules_iff h hnodes))

end Loaded

variable (parse : Text → Option Cst → Cst) (prepare : Text → Text → Text) (files : List FileRead)

/--
On a loaded project both commands end and print the same, outside of the CI mode. They report no
dangling edge and no orphan. The check passes if and only if the files declare all modules and
classes that they refer to.
-/
theorem check_loadFiles {nodes : List GraphNode}
    (hnodes : nodes ~ (ProjectState.loadFiles parse prepare files).graph.allNodes)
    : let state := ProjectState.loadFiles parse prepare files
      let kinds := ProjectState.declaredKinds parse prepare files
      ∃ r, FindsMissing state.graph state.symbols kinds r
        ∧ (∃ bound, ∀ fuel, bound < fuel →
          (∀ ci, CmdCheck.cmdCheck state.graph state.symbols ci fuel nodes
            = some (CmdCheck.printReport ci r))
            ∧ CheckTool.run state.graph state.symbols fuel nodes
              = some (CmdCheck.printReport false r))
        ∧ ∀ ci, passed <:+ CmdCheck.printReport ci r ↔ Closed kinds := by
  intro state kinds
  have h := ProjectState.loaded_foldl parse prepare files
  have hends : ∀ id, ∃ name, Walk.Ends (state.graph.containingStep state.symbols) id name :=
    fun id => (ProjectState.loadFiles_ascending parse prepare files).climbTerminates_containingStep
      state.symbols id
  choose parentModule hparentModule using hends
  let found := nodes.filterMap fun node =>
    (unresolvedInstance (nameOr state.symbols) (definedModules state.symbols nodes) node.kind).map
    fun i => (i, node.id)
  let r : Report := {
    dangling := []
    instances := found.map fun x => x.1.line (parentModule x.2)
    orphans := []
    parents := (unresolvedParents state.symbols nodes).map UnresolvedParent.line
  }
  have hfinds : FindsMissing state.graph state.symbols kinds r := {
    dangling := rfl
    instances := ⟨found, parentModule, Loaded.perm_unresolvedInstances h hnodes, hparentModule, rfl⟩
    orphans := rfl
    parents := (Loaded.perm_unresolvedParents h hnodes).map _
  }
  refine ⟨r, hfinds, ?_,
    fun ci => (passed_suffix_printReport ci r).trans hfinds.totalIssues_eq_zero_iff⟩
  have hdangling : (edgesOfNodes state.graph nodes).filter (isDangling (nodes.map GraphNode.id))
      = [] :=
    Loaded.dangling_eq_nil h hnodes
  have horphans : nodes.filter (isOrphan state.graph) = [] := Loaded.orphans_eq_nil h hnodes
  obtain ⟨bound, hbound⟩ : ∃ bound, ∀ fuel, bound < fuel →
      unresolvedInstances state.graph state.symbols fuel nodes
        = some (found.map fun x => x.1.line (parentModule x.2)) :=
    Walk.exists_mapM_climb hparentModule found
  refine ⟨bound, fun fuel hfuel => ?_⟩
  have hcmd : CmdCheck.report state.graph state.symbols fuel nodes = some r := by
    rw [CmdCheck.report, hbound fuel hfuel, Option.map_some, horphans, cmdCheckDangling, hdangling]
    rfl
  have htool : CheckTool.report state.graph state.symbols fuel nodes = some r := by
    rw [CheckTool.report, hbound fuel hfuel, Option.map_some, horphans,
      CheckTool.runDangling, hdangling]
    rfl
  constructor
  . intro ci
    rw [CmdCheck.cmdCheck, hcmd, Option.map_some]
  . rw [CheckTool.run, htool, Option.map_some, CmdCheck.printReport_eq]

-- No file declares the module of the instance in the generate block
theorem check_loadFiles_generated
    : let state := ProjectState.loadOrBuild ProjectState.parseGenerated [ProjectState.generatedFile]
      ∃ r, (∃ bound, ∀ fuel, bound < fuel →
          CheckTool.run state.graph state.symbols fuel state.graph.allNodes
            = some (CmdCheck.printReport false r))
        ∧ ¬passed <:+ CmdCheck.printReport false r := by
  intro state
  obtain ⟨r, _, ⟨bound, hruns⟩, hpassed⟩ :=
    check_loadFiles ProjectState.parseGenerated (fun source _ => source)
      [ProjectState.generatedFile] (.refl _)
  refine ⟨r, ⟨bound, fun fuel hfuel => (hruns fuel hfuel).2⟩, ?_⟩
  rw [hpassed false]
  intro hclosed
  have hcell := hclosed.modules "u0".toList "cell".toList (by decide)
  revert hcell
  decide

end Consistency
end HdlGraph
