import HdlGraph.Frontend.Definitions

/-!
This module contains the statistics of the two frontends. The command line counts what it meets in
two levels below the files, the tool server counts the nodes of the graph.
-/

namespace HdlGraph

open scoped List

-- The counters of the tool server, in the order of their lines; the command line has the first nine
-- kinds of names
inductive Counter where
  | modules
  | ports
  | signals
  | instances
  | always
  | assigns
  | parameters
  | functions
  | classes
  | properties
  | methods
  | packages
  | interfaces
  | tlmPorts
  | factoryRegs
  | factoryCreates
  | factoryOverrides
  | configSets
  | configGets
  | callSites
  | assertions
  | dpiImports
  deriving DecidableEq, Repr

/-! ## The commands -/

section Commands

variable (g : InMemoryGraph) (fileMap : List (Text × NodeId))

def topCounter : NodeKind ν → Option Counter
  | .module _ => some .modules
  | .class _ _ => some .classes
  | .package _ => some .packages
  | _ => none

def kidCounter : NodeKind ν → Option Counter
  | .signalDecl _ _ => some .signals
  | .moduleInstance _ _ => some .instances
  | .modulePort _ _ => some .ports
  | .alwaysBlock _ => some .always
  | .assignment => some .assigns
  | .function _ _ => some .functions
  | _ => none

def toolCounter : NodeKind ν → Option Counter
  | .module _ => some .modules
  | .class _ _ => some .classes
  | .package _ => some .packages
  | .interface _ => some .interfaces
  | .signalDecl _ _ => some .signals
  | .moduleInstance _ _ => some .instances
  | .modulePort _ _ => some .ports
  | .alwaysBlock _ => some .always
  | .assignment => some .assigns
  | .function _ _ => some .functions
  | .parameter _ => some .parameters
  | .property _ => some .properties
  | .method _ _ => some .methods
  | .tlmPort _ _ => some .tlmPorts
  | .factoryReg _ _ => some .factoryRegs
  | .factoryCreate _ => some .factoryCreates
  | .factoryOverride _ _ => some .factoryOverrides
  | .configDBSet _ => some .configSets
  | .configDBGet _ => some .configGets
  | .callSite _ => some .callSites
  | .assertProperty | .sequenceDecl _ | .propertyDecl _ | .coverGroup _ | .coverPoint _ =>
    some .assertions
  | .dpiImport _ => some .dpiImports
  | _ => none

def increments : List Counter :=
  g.visitTwoLevels (fun _ _ node => (topCounter node.kind).toList)
    (fun _ _ _ kid => (kidCounter kid.kind).toList) fileMap

namespace CmdStats

-- The counters of the source are 32 bits wide, here they are natural numbers
def counters : List Counter :=
  [.modules, .ports, .signals, .instances, .always, .assigns, .classes, .packages, .functions]

def count (counter : Counter) : Nat := (increments g fileMap).count counter

def lines : List (Text × Nat) := [
  ("  Files:     ".toList, fileMap.length),
  ("  Nodes:     ".toList, g.nodeCount),
  ("  Edges:     ".toList, g.edgeCount),
  ("  Modules:   ".toList, count g fileMap .modules),
  ("  Ports:     ".toList, count g fileMap .ports),
  ("  Signals:   ".toList, count g fileMap .signals),
  ("  Instances: ".toList, count g fileMap .instances),
  ("  Always:    ".toList, count g fileMap .always),
  ("  Assigns:   ".toList, count g fileMap .assigns),
  ("  Classes:   ".toList, count g fileMap .classes),
  ("  Packages:  ".toList, count g fileMap .packages),
  ("  Functions: ".toList, count g fileMap .functions)]

def cmdStats : Text :=
  println "Graph Statistics:".toList ++ (lines g fileMap).flatMap fun line =>
    println (line.1 ++ (Nat.repr line.2).toList)

end CmdStats

namespace StatsTool

def count (counter : Counter) : Nat :=
  (g.allNodes.filterMap fun node => toolCounter node.kind).count counter

def lines : List (Text × Option Nat) := [
  (" Files:       ".toList, some fileMap.length),
  (" Nodes:       ".toList, some g.nodeCount),
  (" Edges:       ".toList, some g.edgeCount),
  (" --- Structural ---".toList, none),
  (" Modules:     ".toList, some (count g .modules)),
  (" Ports:       ".toList, some (count g .ports)),
  (" Signals:     ".toList, some (count g .signals)),
  (" Instances:   ".toList, some (count g .instances)),
  (" Always:      ".toList, some (count g .always)),
  (" Assigns:     ".toList, some (count g .assigns)),
  (" Parameters:  ".toList, some (count g .parameters)),
  (" Functions:   ".toList, some (count g .functions)),
  (" --- OOP ---".toList, none),
  (" Classes:     ".toList, some (count g .classes)),
  (" Properties:  ".toList, some (count g .properties)),
  (" Methods:     ".toList, some (count g .methods)),
  (" --- Packages & Interfaces ---".toList, none),
  (" Packages:    ".toList, some (count g .packages)),
  (" Interfaces:  ".toList, some (count g .interfaces)),
  (" --- UVM ---".toList, none),
  (" TLM Ports:   ".toList, some (count g .tlmPorts)),
  (" Factory Reg: ".toList, some (count g .factoryRegs)),
  (" Factory New: ".toList, some (count g .factoryCreates)),
  (" Factory Ovr: ".toList, some (count g .factoryOverrides)),
  (" ConfigDB Set:".toList, some (count g .configSets)),
  (" ConfigDB Get:".toList, some (count g .configGets)),
  (" --- Misc ---".toList, none),
  (" Call Sites:  ".toList, some (count g .callSites)),
  (" Assertions:  ".toList, some (count g .assertions)),
  (" DPI Imports: ".toList, some (count g .dpiImports))]

def run : Text :=
  "Graph Statistics:".toList
    ++ (lines g fileMap).flatMap fun line =>
      "\n ".toList ++ line.1 ++ (line.2.elim [] fun n => (Nat.repr n).toList)

end StatsTool
end Commands

/-! ## The nodes of a project -/

namespace Selection

def counted (counter : Counter) : Selection where
  kinds kind := (topCounter kind).or (kidCounter kind) = some counter
  top kind := topCounter kind = some counter
  below _ kind := kidCounter kind = some counter
  kinds_of_top := by
    intro kind
    cases kind <;> simp [topCounter, kidCounter]
  kinds_of_below := by
    intro edge kind
    cases kind <;> simp [topCounter, kidCounter]
  top_of_kinds := by
    intro kind
    cases kind <;> simp [topCounter, kidCounter, NodeKind.IsTopLevel]
  sourceFile := rfl

end Selection

def TopItem.isClass : TopItem → Bool
  | .class _ => true
  | _ => false

namespace ProjectState

variable (parse : Text → Option Cst → Cst) (prepare : Text → Text → Text) (files : List FileRead)

/-- The command line counts the nodes of each kind, like the tool server. -/
def StatsAgree : Prop :=
  ∀ fileMap, fileMap ~ (loadFiles parse prepare files).fileMap.toList →
    ∀ counter ∈ CmdStats.counters,
    CmdStats.count (loadFiles parse prepare files).graph fileMap counter
        = ((loadFiles parse prepare files).graph.allNodes.filter fun node =>
          toolCounter node.kind = some counter).length
      ∧ CmdStats.count (loadFiles parse prepare files).graph fileMap counter
        = StatsTool.count (loadFiles parse prepare files).graph counter

def foundClasses : Nat :=
  ((((placed parse prepare files).filter fun x => lastUnder x.2.rel (placed parse prepare files)
    = some x).flatMap
    (itemsOf parse prepare)).countP TopItem.isClass)

def allClasses : Nat :=
  (((placed parse prepare files).flatMap (itemsOf parse prepare)).flatMap TopItem.kinds).countP
  NodeKind.isClass

/--
All that is counted, except for classes, is where the loops get once. Classes are counted twice at
the top level of a file and not at all elsewhere, and there must be as many of the ones as of the
others.
-/
structure CountsRight : Prop where
  shown : ∀ counter ∈ CmdStats.counters, counter ≠ .classes →
    ShowsAll parse prepare files (.counted counter)
  classes : allClasses parse prepare files
    = foundClasses parse prepare files + foundClasses parse prepare files

/-! ## What is counted -/

theorem count_eq_length (counters : List Counter) (counter : Counter)
    : counters.count counter
        = (counters.flatMap fun c => if c = counter then [()] else []).length := by
  induction counters with
  | nil => rfl
  | cons c rest ih =>
    rw [List.count_cons, List.flatMap_cons, List.length_append, ih, Nat.add_comm]
    by_cases hc : c = counter <;> simp [hc]

variable {parse prepare files}

theorem topCounter_of_resolve {symbols : SymbolTable} {kind : NodeKind InternedString}
    {named : NodeKind Text} (h : kind.resolve symbols = some named)
    : topCounter kind = topCounter named := by
  cases NodeKind.says_of_resolve h <;> rfl

theorem kidCounter_of_resolve {symbols : SymbolTable} {kind : NodeKind InternedString}
    {named : NodeKind Text} (h : kind.resolve symbols = some named)
    : kidCounter kind = kidCounter named := by
  cases NodeKind.says_of_resolve h <;> rfl

theorem toolCounter_eq_iff {counter : Counter} (h : counter ∈ CmdStats.counters) (kind : NodeKind ν)
    : toolCounter kind = some counter ↔ (topCounter kind).or (kidCounter kind) = some counter := by
  cases kind <;> simp_all [toolCounter, topCounter, kidCounter, CmdStats.counters] <;> grind

theorem cmdStats_count_eq (counter : Counter) {fileMap : List (Text × NodeId)}
    (hfileMap : fileMap ~ (loadFiles parse prepare files).fileMap.toList)
    : CmdStats.count (loadFiles parse prepare files).graph fileMap counter
        = (seenNodes parse prepare files (.counted counter)).length := by
  have houtput : ∀ (found : Option Counter),
      found.toList.flatMap (fun c => if c = counter then [()] else [])
      = if decide (found = some counter) then [()] else [] := by
    intro found
    cases found with
    | none => rfl
    | some c => by_cases hc : c = counter <;> simp [hc]
  rw [CmdStats.count, count_eq_length, increments]
  refine (List.Perm.length_eq
    ((loaded_foldl parse prepare files).perm_flatMap_visit (s := .counted counter) _
    (fun _ _ => ()) ?_ ?_ hfileMap)).trans (List.length_map _)
  . intro file fid node named h
    rw [houtput, topCounter_of_resolve h]
    rfl
  . intro file node ce kid named h
    rw [houtput, kidCounter_of_resolve h]
    rfl

theorem length_filter_allNodes {counter : Counter} (h : counter ∈ CmdStats.counters)
    : ((loadFiles parse prepare files).graph.allNodes.filter fun node =>
        toolCounter node.kind = some counter).length
        = (nodesOfKinds parse prepare files (.counted counter)).length := by
  have hkinds : ∀ (kind : NodeKind InternedString) (named : NodeKind Text),
      kind.resolve (loadFiles parse prepare files).symbols = some named →
      decide (toolCounter kind = some counter) = (Selection.counted counter).kinds named := by
    intro kind named hresolve
    simp only [toolCounter_eq_iff h, topCounter_of_resolve hresolve, kidCounter_of_resolve hresolve]
    rfl
  have hlength := ((loaded_foldl parse prepare files).perm_filter_allNodes hkinds).length_eq
  rwa [List.length_map, List.length_map] at hlength

theorem statsTool_count_eq (g : InMemoryGraph) (counter : Counter)
    : StatsTool.count g counter
        = (g.allNodes.filter fun node => toolCounter node.kind = some counter).length := by
  rw [StatsTool.count, List.count_filterMap, List.countP_eq_length_filter]
  congr 1
  apply List.filter_congr
  intro node _
  cases toolCounter node.kind <;> simp [beq_eq_decide]

/-! ## The classes -/

theorem length_seenNodes_classes {item : TopItem} (hregular : item.Regular) (b : NodeId)
    : (item.seenNodes (.counted .classes) b).length = item.isClass.toNat + item.isClass.toNat := by
  have hbelow : item.found (.counted .classes) b
      = if topCounter (item.rootAt b).kind = some .classes then [item.rootAt b] else [] := by
    have hnone : ((item.childrenAt b).flatMap fun c =>
        if (Selection.counted .classes).below c.1 c.2.kind then [c.2] else []) = [] := by
      rw [List.flatMap_eq_nil_iff]
      intro c _
      generalize c.2.kind = kind
      cases kind <;> rfl
    rw [TopItem.found, hnone, List.append_nil]
    simp only [Selection.counted, decide_eq_true_eq]
  rw [TopItem.seenNodes_eq, hbelow]
  cases item with
  | declared o =>
    have hkind := hregular.declared o rfl
    have htop : topCounter o.label.kind ≠ some .classes := by
      generalize o.label.kind = kind at hkind
      cases kind <;> simp_all [NodeKind.IsTopLevel, topCounter]
    simp [TopItem.visits, TopItem.isClass, TopItem.rootAt, TopItem.outline,
      Declared.namedNode, htop]
  | «class» o =>
    have hkind := (hregular.classItem o rfl).1
    have htop : topCounter o.label.kind = some .classes := by
      generalize o.label.kind = kind at hkind
      cases kind <;> simp_all [NodeKind.isClass, topCounter]
    simp [TopItem.visits, TopItem.isClass, TopItem.rootAt, TopItem.outline,
      Declared.namedNode, htop]
  | module name pos items =>
    have htop : topCounter (.module name) ≠ some .classes := by simp [topCounter]
    simp [TopItem.isClass, TopItem.rootAt, TopItem.outline, Declared.namedNode, Rose.label, htop]

theorem length_seenNodesIn_classes (x : Nat × FileRead)
    : (seenNodesIn parse prepare files (.counted .classes) x).length
        = if lastUnder x.2.rel (placed parse prepare files) = some x then
            (itemsOf parse prepare x).countP TopItem.isClass + (itemsOf parse prepare x).countP
            TopItem.isClass
          else 0 := by
  by_cases hlast : lastUnder x.2.rel (placed parse prepare files) = some x
  . obtain ⟨outline, hout⟩ := exists_outlineOf_of_last hlast
    have hitems := outline.map_snd_placedItems x.1
    have hlength : ∀ y ∈ outline.placedItems x.1, (y.2.seenNodes (.counted .classes) y.1).length
        = y.2.isClass.toNat + y.2.isClass.toNat :=
      fun y hy => length_seenNodes_classes (regular_of_mem_placedItems hout hy) y.1
    rw [if_pos hlast, seenNodesIn_of_last hout hlast, List.length_map, List.length_flatMap,
      List.map_congr_left hlength, List.sum_map_add, itemsOf, hout, Option.elim_some, ← hitems,
      List.countP_map]
    have hsum : ∀ l : List (Nat × TopItem),
        (l.map fun y => y.2.isClass.toNat).sum = l.countP (TopItem.isClass ∘ Prod.snd) := by
      intro l
      induction l with
      | nil => rfl
      | cons y l ih =>
        rw [List.map_cons, List.sum_cons, List.countP_cons, ih, Nat.add_comm]
        cases hy : y.2.isClass <;> simp [hy]
    rw [hsum]
  . rw [if_neg hlast, seenNodesIn_of_not_last hlast, List.length_nil]

theorem length_seenNodes_eq
    : (seenNodes parse prepare files (.counted .classes)).length
        = foundClasses parse prepare files + foundClasses parse prepare files := by
  rw [seenNodes, List.length_flatMap, foundClasses, Chunks.flatMap_filter, List.countP_flatMap,
    ← List.sum_map_add]
  congr 1
  apply List.map_congr_left
  intro x _
  rw [length_seenNodesIn_classes, Function.comp_apply]
  split <;> simp

variable (parse prepare files)

/-- The statistics agree exactly under these conditions. -/
theorem statsAgree_iff : StatsAgree parse prepare files ↔ CountsRight parse prepare files := by
  have hcounter : ∀ counter ∈ CmdStats.counters, counter ≠ .classes →
      ((seenNodes parse prepare files (.counted counter)).length
        = (nodesOfKinds parse prepare files (.counted counter)).length
        ↔ ShowsAll parse prepare files (.counted counter)) := by
    intro counter _ hclasses
    apply length_eq_iff
    . intro kind hkind
      cases kind <;> simp_all [NodeKind.isClass, Selection.counted, topCounter, eq_comm]
    . intro edge kind hkind
      cases kind <;> simp_all [NodeKind.IsClassMember, Selection.counted, kidCounter]
  have hall : (nodesOfKinds parse prepare files (.counted .classes)).length
      = allClasses parse prepare files := by
    rw [length_nodesOfKinds, allClasses]
    congr 1
    funext kind
    cases kind <;> rfl
  have hagree : StatsAgree parse prepare files ↔ ∀ counter ∈ CmdStats.counters,
      (seenNodes parse prepare files (.counted counter)).length
        = (nodesOfKinds parse prepare files (.counted counter)).length := by
    constructor
    . intro h counter hmem
      have hcount := (h _ (.refl _) counter hmem).1
      rwa [cmdStats_count_eq counter (.refl _), length_filter_allNodes hmem] at hcount
    . intro h fileMap hfileMap counter hmem
      rw [statsTool_count_eq, cmdStats_count_eq counter hfileMap, length_filter_allNodes hmem,
        h counter hmem]
      exact ⟨rfl, rfl⟩
  rw [hagree]
  constructor
  . intro h
    refine ⟨fun counter hmem hclasses => (hcounter counter hmem hclasses).mp (h counter hmem), ?_⟩
    rw [← hall, ← length_seenNodes_eq, h .classes (by decide)]
  . intro h counter hmem
    by_cases hclasses : counter = .classes
    . rw [hclasses, hall, length_seenNodes_eq, h.classes]
    . exact (hcounter counter hmem hclasses).mpr (h.shown counter hmem hclasses)

-- The class is counted twice by the one command and once by the other
theorem not_statsAgree_class : ¬StatsAgree parseClass (fun source _ => source) [classFile] := by
  intro h
  have hcount := (h _ (.refl _) .classes (by decide)).2
  revert hcount
  decide +kernel

end ProjectState
end HdlGraph
