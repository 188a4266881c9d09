import HdlGraph.Frontend.FileOfNode
import HdlGraph.Frontend.Impact
import HdlGraph.Project.Planted

/-!
This module contains the command and the tool that explore a module or class. The command goes over
the children on `Contains` edges and searches the file three levels deep, the tool goes over all
children and searches one level.
-/

namespace HdlGraph

open scoped List
open Blocks

namespace NodeKind

def explorable : NodeKind ν → Option ν
  | .module name | .class name _ | .package name | .interface name => some name
  | _ => none

def isExplored : NodeKind ν → Bool
  | .modulePort _ _ | .signalDecl _ _ | .moduleInstance _ _ | .function _ _ | .alwaysBlock
      _ | .assignment => true
  | _ => false

end NodeKind

structure ExploredChildren where
  ports : List (Text × PortDirection)
  signals : List (Text × SignalKind)
  instances : List (Text × Text)
  functions : List (Bool × Text)
  alwaysCount : Nat
  assignCount : Nat
  deriving DecidableEq, Repr

namespace ExploredChildren

def empty : ExploredChildren := ⟨[], [], [], [], 0, 0⟩

def push (symbols : SymbolTable) (found : ExploredChildren) (child : GraphNode)
    : ExploredChildren :=
  match child.kind with
  | .modulePort name direction =>
    { found with ports := found.ports ++ [(nameOr symbols name, direction)] }
  | .signalDecl name kind =>
    { found with signals := found.signals ++ [(nameOr symbols name, kind)] }
  | .moduleInstance name moduleType =>
    { found with
      instances := found.instances ++ [(nameOr symbols name, nameOr symbols moduleType)] }
  | .function name isTask =>
    { found with functions := found.functions ++ [(isTask, nameOr symbols name)] }
  | .alwaysBlock _ => { found with alwaysCount := found.alwaysCount + 1 }
  | .assignment => { found with assignCount := found.assignCount + 1 }
  | _ => found

def classify (symbols : SymbolTable) (children : List GraphNode) : ExploredChildren :=
  children.foldl (push symbols) empty

def total (found : ExploredChildren) : Nat :=
  found.ports.length + found.signals.length + found.instances.length + found.functions.length
    + found.alwaysCount
    + found.assignCount

end ExploredChildren

namespace InMemoryGraph

/-! ## The command and the tool -/

section Commands

variable (g : InMemoryGraph) (symbols : SymbolTable)

def childrenOn (edges : List Edge) : List GraphNode := edges.filterMap fun e => g.getNode e.target

def onContains (edges : List Edge) : List Edge := edges.filter fun e => e.edgeType = .contains

structure CmdExplored where
  file : Option Text
  children : ExploredChildren
  deriving DecidableEq, Repr

def cmdExplore (nodes : List GraphNode) (fileMap : List (Text × NodeId)) (name : Text)
    : Option CmdExplored :=
  (nodes.find? fun n => n.kind.explorable.isSome && nodeNameFromKind n.kind symbols = some name).map
  fun target =>
    { file := Helpers.findFileForNode g fileMap target.id
      children := .classify symbols (childrenOn g (onContains (g.getOutgoing target.id))) }

structure ToolExplored where
  file : Option Text
  children : ExploredChildren
  classes : List Text
  others : Nat
  deriving DecidableEq, Repr

def exploredClass (child : GraphNode) : Option Text :=
  match child.kind with
  | .class name _ => some (nameOr symbols name)
  | _ => none

def isOther (child : GraphNode) : Bool :=
  match child.kind with
  | .class _ _ => false
  | kind => !kind.isExplored

def parentFile (fileMap : List (Text × NodeId)) (nodeId : NodeId) : Option Text :=
  fileMap.findSome? fun (path, fid) => if (g.getOutgoing fid).any fun e =>
    e.target = nodeId then some path else none

def exploreTool (nodes : List GraphNode) (fileMap : List (Text × NodeId)) (name : Text)
    : Option ToolExplored :=
  (nodes.find? fun n => n.kind.explorable.any fun id => symbols.resolve id = some name).map
  fun target =>
    let children := childrenOn g (g.getOutgoing target.id)
    { file := parentFile g fileMap target.id
      children := .classify symbols children
      classes := children.filterMap (exploredClass symbols)
      others := children.countP isOther }

end Commands
end InMemoryGraph

/-! ## What they write -/

namespace Explore

-- The kinds as `Debug` prints them
def directionDebug : PortDirection → Text
  | .input => "Input".toList
  | .output => "Output".toList
  | .inout => "Inout".toList
  | .ref => "Ref".toList

def signalDebug : SignalKind → Text
  | .wire => "Wire".toList
  | .reg => "Reg".toList
  | .logic => "Logic".toList
  | .integer => "Integer".toList
  | .bit => "Bit".toList

def noted (name note : Text) : Text := "  - ".toList ++ name ++ " (".toList ++ note ++ ")".toList

def instanceItem (i : Text × Text) : Text := "  - ".toList ++ i.1 ++ " : ".toList ++ i.2

def functionItem (f : Bool × Text) : Text :=
  "  - ".toList ++ (if f.1 then "task ".toList else "function ".toList) ++ f.2

def heading (title : String) (n : Nat) : Text :=
  title.toList ++ " (".toList ++ (Nat.repr n).toList ++ ")".toList

def notFound (name : Text) : Text := "Module/Class not found: ".toList ++ name

def cmdSection (title : String) (items : List Text) : Text :=
  println ("\n## ".toList ++ heading title items.length) ++ items.flatMap println

def cmdText (name : Text) : Option InMemoryGraph.CmdExplored → Text
  | none => println (notFound name)
  | some found =>
    println ("# ".toList ++ name)
      ++ (found.file.elim [] fun file => println ("**File:** ".toList ++ file))
      ++ cmdSection "Ports" (found.children.ports.map fun p => noted p.1 (directionDebug p.2))
      ++ cmdSection "Signals" (found.children.signals.map fun s => noted s.1 (signalDebug s.2))
      ++ cmdSection "Instances" (found.children.instances.map instanceItem)
      ++ cmdSection "Functions/Tasks" (found.children.functions.map functionItem)
      ++ println "\n## Summary".toList
      ++ println ("  Always blocks: ".toList ++ (Nat.repr found.children.alwaysCount).toList)
      ++ println ("  Assignments: ".toList ++ (Nat.repr found.children.assignCount).toList)

def toolSection (title : String) (items : List Text) : Text :=
  if items.isEmpty then []
  else println ("## ".toList ++ heading title items.length) ++ items.flatMap println ++ println []

def toolText (name : Text) : Option InMemoryGraph.ToolExplored → Text
  | none => notFound name
  | some found =>
    "# ".toList ++ name ++ "\n\n".toList
      ++ (found.file.elim [] fun file => "**File:** ".toList ++ file ++ "\n\n".toList)
      ++ toolSection "Ports" (found.children.ports.map fun p => noted p.1 p.2.name)
      ++ toolSection "Signals" (found.children.signals.map fun s => noted s.1 s.2.name)
      ++ toolSection "Instances" (found.children.instances.map instanceItem)
      ++ toolSection "Functions/Tasks" (found.children.functions.map functionItem)
      ++ toolSection "Nested Classes" (found.classes.map fun c => "  - class ".toList ++ c)
      ++ println "## Summary".toList
      ++ println ("  Always blocks: ".toList ++ (Nat.repr found.children.alwaysCount).toList)
      ++ println ("  Assignments:   ".toList ++ (Nat.repr found.children.assignCount).toList)
      ++ if found.others
        > 0 then println ("  Other nodes:   ".toList ++ (Nat.repr found.others).toList) else []

end Explore

namespace InMemoryGraph

/-! ## What they are to list -/

section Listed

variable (g : InMemoryGraph) (symbols : SymbolTable)

def BearsName (name : Text) (node : GraphNode) : Bool :=
  node.kind.explorable.any fun id => symbols.resolve id = some name

def directChildren (v : NodeId) : List GraphNode :=
  g.allNodes.filter fun node => node.id ∈ (g.getOutgoing v).map Edge.target

def portOf (child : GraphNode) : Option (Text × PortDirection) :=
  match child.kind with
  | .modulePort name direction => some (nameOr symbols name, direction)
  | _ => none

def signalOf (child : GraphNode) : Option (Text × SignalKind) :=
  match child.kind with
  | .signalDecl name kind => some (nameOr symbols name, kind)
  | _ => none

def instanceOf (child : GraphNode) : Option (Text × Text) :=
  match child.kind with
  | .moduleInstance name moduleType => some (nameOr symbols name, nameOr symbols moduleType)
  | _ => none

def functionOf (child : GraphNode) : Option (Bool × Text) :=
  match child.kind with
  | .function name isTask => some (isTask, nameOr symbols name)
  | _ => none

def isAlways (child : GraphNode) : Bool :=
  match child.kind with
  | .alwaysBlock _ => true
  | _ => false

def isAssign (child : GraphNode) : Bool :=
  match child.kind with
  | .assignment => true
  | _ => false

/-- Each direct child is listed or counted once, and nothing else is. -/
structure ListsChildren (v : NodeId) (found : ExploredChildren) : Prop where
  ports : found.ports ~ (directChildren g v).filterMap (portOf symbols)
  signals : found.signals ~ (directChildren g v).filterMap (signalOf symbols)
  instances : found.instances ~ (directChildren g v).filterMap (instanceOf symbols)
  functions : found.functions ~ (directChildren g v).filterMap (functionOf symbols)
  alwaysCount : found.alwaysCount = (directChildren g v).countP isAlways
  assignCount : found.assignCount = (directChildren g v).countP isAssign

end Listed

/-! ## The children -/

section Children

variable {g : InMemoryGraph} {symbols : SymbolTable}

theorem push_eq (found : ExploredChildren) (child : GraphNode)
    : found.push symbols child
        = { ports := found.ports ++ (portOf symbols child).toList
            signals := found.signals ++ (signalOf symbols child).toList
            instances := found.instances ++ (instanceOf symbols child).toList
            functions := found.functions ++ (functionOf symbols child).toList
            alwaysCount := found.alwaysCount + (isAlways child).toNat
            assignCount := found.assignCount + (isAssign child).toNat } := by
  unfold ExploredChildren.push portOf signalOf instanceOf functionOf isAlways isAssign
  cases child.kind <;> simp only [Option.toList_none, Option.toList_some, List.append_nil,
    Bool.toNat_false,
    Bool.toNat_true, Nat.add_zero]

theorem foldl_push (children : List GraphNode) (found : ExploredChildren)
    : children.foldl (ExploredChildren.push symbols) found
        = { ports := found.ports ++ children.filterMap (portOf symbols)
            signals := found.signals ++ children.filterMap (signalOf symbols)
            instances := found.instances ++ children.filterMap (instanceOf symbols)
            functions := found.functions ++ children.filterMap (functionOf symbols)
            alwaysCount := found.alwaysCount + children.countP isAlways
            assignCount := found.assignCount + children.countP isAssign } := by
  have hcons : ∀ {α : Type} (f : GraphNode → Option α) (child : GraphNode)
      (children : List GraphNode),
      (child :: children).filterMap f = (f child).toList ++ children.filterMap f := by
    intro α f child children
    rw [List.filterMap_cons]
    cases f child <;> rfl
  have hcount : ∀ (p : GraphNode → Bool) (child : GraphNode) (children : List GraphNode),
      (child :: children).countP p = (p child).toNat + children.countP p := by
    intro p child children
    rw [List.countP_cons, Nat.add_comm]
    cases p child <;> rfl
  induction children generalizing found with
  | nil => simp
  | cons child children ih =>
    rw [List.foldl_cons, ih, push_eq]
    simp only [hcons, hcount, List.append_assoc, Nat.add_assoc]

theorem listsChildren_classify (symbols : SymbolTable) {v : NodeId} {children : List GraphNode}
    (h : children ~ directChildren g v)
    : ListsChildren g symbols v (.classify symbols children) := by
  rw [ExploredChildren.classify, foldl_push]
  constructor
  case ports => exact h.filterMap _
  case signals => exact h.filterMap _
  case instances => exact h.filterMap _
  case functions => exact h.filterMap _
  case alwaysCount => exact (Nat.zero_add _).trans (h.countP_eq _)
  case assignCount => exact (Nat.zero_add _).trans (h.countP_eq _)

theorem total_foldl_push (children : List GraphNode) (found : ExploredChildren)
    : (children.foldl (ExploredChildren.push symbols) found).total
        = found.total + children.countP fun child => child.kind.isExplored := by
  induction children generalizing found with
  | nil => rfl
  | cons child children ih =>
    have hpush : (found.push symbols child).total = found.total + if child.kind.isExplored
        then 1 else 0 := by
      cases hkind : child.kind <;>
        simp [ExploredChildren.push, ExploredChildren.total, NodeKind.isExplored, hkind] <;> omega
    rw [List.foldl_cons, ih, hpush, List.countP_cons]
    omega

theorem total_classify (children : List GraphNode)
    : (ExploredChildren.classify symbols children).total = children.countP fun child =>
        child.kind.isExplored := by
  rw [ExploredChildren.classify, total_foldl_push]
  exact Nat.zero_add _

theorem ListsChildren.total_eq {v : NodeId} {found found' : ExploredChildren}
    (h : ListsChildren g symbols v found) (h' : ListsChildren g symbols v found')
    : found.total = found'.total := by
  unfold ExploredChildren.total
  rw [(h.ports.trans h'.ports.symm).length_eq, (h.signals.trans h'.signals.symm).length_eq,
    (h.instances.trans h'.instances.symm).length_eq,
    (h.functions.trans h'.functions.symm).length_eq, h.alwaysCount,
    h'.alwaysCount, h.assignCount, h'.assignCount]

theorem classify_filter (children : List GraphNode)
    : ExploredChildren.classify symbols (children.filter fun child => child.kind.isExplored)
        = ExploredChildren.classify symbols children := by
  rw [ExploredChildren.classify, List.foldl_filter, ExploredChildren.classify]
  congr 1
  funext found child
  cases hkind : child.kind <;> simp [ExploredChildren.push, NodeKind.isExplored, hkind]

variable (g) in
def ExploredTarget (e : Edge) : Bool := (g.getNode e.target).any fun child => child.kind.isExplored

theorem filter_childrenOn (edges : List Edge)
    : (childrenOn g edges).filter (fun child => child.kind.isExplored)
        = childrenOn g (edges.filter (ExploredTarget g)) := by
  rw [childrenOn, childrenOn, List.filter_filterMap, List.filterMap_filter]
  apply List.filterMap_congr
  intro e _
  rw [ExploredTarget]
  cases g.getNode e.target <;> simp [Option.filter]

theorem classify_onContains {edges : List Edge}
    (h : ∀ e ∈ edges, ExploredTarget g e → e.edgeType = .contains)
    : ExploredChildren.classify symbols (childrenOn g (onContains edges))
        = ExploredChildren.classify symbols (childrenOn g edges) := by
  rw [← classify_filter, ← classify_filter (childrenOn g edges), filter_childrenOn,
    filter_childrenOn, onContains, List.filter_filter]
  congr 2
  apply List.filter_congr
  intro e he
  have := h e he
  grind

theorem contains_of_total (symbols : SymbolTable) {edges : List Edge}
    (h : (ExploredChildren.classify symbols (childrenOn g (onContains edges))).total
      = (ExploredChildren.classify symbols (childrenOn g edges)).total)
    : ∀ e ∈ edges, ExploredTarget g e → e.edgeType = .contains := by
  have hcount : ∀ edges : List Edge, (ExploredChildren.classify symbols (childrenOn g edges)).total
      = (edges.filter (ExploredTarget g)).length := by
    intro edges
    rw [total_classify, childrenOn, List.countP_filterMap, ← List.countP_eq_length_filter]
    congr 1
    funext e
    rw [ExploredTarget]
    cases g.getNode e.target <;> rfl
  rw [hcount, hcount, onContains, List.filter_comm, List.length_filter_eq_length_iff] at h
  intro e he hexplored
  exact of_decide_eq_true (h e (List.mem_filter.mpr ⟨he, hexplored⟩))

theorem PlantedWith.perm_childrenOn {nextId : NodeId} {roots : List NodeId} {log : List Edge}
    (h : PlantedWith g nextId roots log) {v : NodeId} (hv : v ∉ roots)
    : childrenOn g (g.getOutgoing v) ~ directChildren g v := by
  have hkeyed := h.reachable.keyed
  have hforest : Forest.ForestOn (fun v => (g.getOutgoing v).map Edge.target) (· ∉ roots) :=
    h.forestOn fun _ => .refl _
  have hchildren : childrenOn g (g.getOutgoing v)
      = ((g.getOutgoing v).map Edge.target).filterMap g.getNode := by
    rw [List.filterMap_map]
    rfl
  rw [hchildren, List.perm_ext_iff_of_nodup]
  . intro node
    rw [List.mem_filterMap, directChildren, List.mem_filter, decide_eq_true_eq]
    constructor
    . rintro ⟨id, hid, hnode⟩
      obtain ⟨hmem, rfl⟩ := hkeyed.getNode_eq_some_iff.mp hnode
      exact ⟨hmem, hid⟩
    . intro ⟨hmem, hid⟩
      exact ⟨node.id, hid, hkeyed.getNode_eq_some_iff.mpr ⟨hmem, rfl⟩⟩
  . refine (hforest.nodup v hv).filterMap ?_
    intro id id' node hnode hnode'
    rw [← (hkeyed.getNode_eq_some_iff.mp hnode).2, (hkeyed.getNode_eq_some_iff.mp hnode').2]
  . exact (List.Nodup.of_map _ hkeyed.ids_nodup).filter _

end Children
end InMemoryGraph

/-! ## The file -/

namespace ProjectState

open InMemoryGraph

def DirectlyInFile (state : ProjectState) (v : NodeId) : Prop :=
  ∃ rel fid, (rel, fid) ∈ state.fileMap.toList ∧ ∃ e ∈ state.graph.getOutgoing fid,
    e.edgeType = .contains ∧ e.target = v

section Files

variable {parse : Text → Option Cst → Cst} {prepare : Text → Text → Text} {files : List FileRead}
variable {st : InMemoryGraph × GraphExtractor × Dict Text NodeId} {v : NodeId}

theorem Loaded.lt_of_child (h : Loaded parse prepare files st) {x : Nat × FileRead}
    (hx : x ∈ placed parse prepare files) (hcontent : x.2.content.isSome) {e : Edge}
    (he : e ∈ st.1.getOutgoing x.1)
    : x.1 < e.target ∧ Covers (blockSize parse prepare) x e.target := by
  have ⟨hmem, hsource⟩ := (h.mem_getOutgoing_iff hx (covers_start hcontent)).mp he
  exact ⟨hsource ▸ (mem_edges_subgraphAt hmem).2.1, (covers_of_mem_edges hmem).2⟩

theorem exists_contains_of_containedWithin {g : InMemoryGraph} {hops : Nat} {id : NodeId}
    (h : containedWithin g v hops id) (hne : id ≠ v)
    : ∃ s, ∃ e ∈ g.getOutgoing s, e.edgeType = .contains ∧ e.target = v := by
  induction hops generalizing id with
  | zero => exact absurd (of_decide_eq_true h) hne
  | succ hops ih =>
    simp only [containedWithin, Bool.or_eq_true, decide_eq_true_eq, List.any_eq_true,
      Bool.and_eq_true] at h
    obtain ⟨e, he, hcontains, hrest⟩ := h.resolve_left hne
    by_cases htarget : e.target = v
    . exact ⟨id, e, he, hcontains, htarget⟩
    . exact ih hrest htarget

/-- Both name the same file if and only if the node is a child of a file on a `Contains` edge. -/
theorem namesFile_iff (parse : Text → Option Cst → Cst) (prepare : Text → Text → Text)
    (files : List FileRead) (v : NodeId)
    : (∃ file, ∀ fileMap, fileMap ~ (loadFiles parse prepare files).fileMap.toList →
        Helpers.findFileForNode (loadFiles parse prepare files).graph fileMap v = some file
          ∧ parentFile (loadFiles parse prepare files).graph fileMap v = some file)
        ↔ DirectlyInFile (loadFiles parse prepare files) v := by
  have h := loaded_foldl parse prepare files
  constructor
  . rintro ⟨file, hfile⟩
    have ⟨hcmd, htool⟩ := hfile _ (.refl _)
    obtain ⟨⟨rel, fid⟩, hentry, hpath⟩ := List.exists_of_findSome?_eq_some htool
    rw [Option.ite_none_right_eq_some, Option.some.injEq, List.any_eq_true] at hpath
    obtain ⟨⟨e, he, htarget⟩, rfl⟩ := hpath
    obtain rfl := of_decide_eq_true htarget
    obtain ⟨⟨rel', fid'⟩, hentry', hpath'⟩ := List.exists_of_findSome?_eq_some hcmd
    rw [Option.ite_none_right_eq_some] at hpath'
    obtain ⟨x, hlast, rfl⟩ := h.mem_fileMap_iff.mp hentry
    obtain ⟨y, hlast', rfl⟩ := h.mem_fileMap_iff.mp hentry'
    have ⟨hx, _, hcontent⟩ := mem_of_lastUnder hlast
    have ⟨hy, _, hcontent'⟩ := mem_of_lastUnder hlast'
    have ⟨hlt, hcovers⟩ := h.lt_of_child hx hcontent he
    have hsame : y = x :=
      eq_of_covers placed_pairwise hy hx (h.covers_of_containedWithin hy hcontent' hpath'.1) hcovers
    subst hsame
    -- the last edge of the path is the one from the file
    obtain ⟨s, e', he', hcontains, htarget'⟩ :=
      exists_contains_of_containedWithin hpath'.1 (Nat.ne_of_lt hlt)
    obtain ⟨_, _, log, hplanted⟩ := loadFiles_planted parse prepare files
    have ⟨hmem, hsource⟩ := hplanted.logs.mem_getOutgoing.mp he
    have ⟨hmem', hsource'⟩ := hplanted.logs.mem_getOutgoing.mp he'
    have hparent := hplanted.parent e' hmem' e hmem htarget'
    rw [hsource, hsource'] at hparent
    exact ⟨rel, y.1, hentry, e', hparent ▸ he', hcontains, htarget'⟩
  . rintro ⟨rel, fid, hentry, e, he, hcontains, htarget⟩
    refine ⟨rel, fun fileMap hfileMap => ⟨?_, ?_⟩⟩
    . refine h.findSome?_eq_some (containedWithin (loadFiles parse prepare files).graph v 3)
        (v := v) ?_ hfileMap hentry ?_
      . intro x hx hcontent hwithin
        exact h.covers_of_containedWithin hx hcontent hwithin
      . have hhere : containedWithin (loadFiles parse prepare files).graph v 2 e.target = true := by
          simp [containedWithin, htarget]
        rw [containedWithin, Bool.or_eq_true, List.any_eq_true]
        exact Or.inr ⟨e, he, Bool.and_eq_true_iff.mpr ⟨decide_eq_true hcontains, hhere⟩⟩
    . refine h.findSome?_eq_some (fun fid =>
        ((loadFiles parse prepare files).graph.getOutgoing fid).any fun e => e.target = v)
        (v := v) ?_ hfileMap hentry ?_
      . intro x hx hcontent hany
        obtain ⟨e, he, htarget⟩ := List.any_eq_true.mp hany
        exact of_decide_eq_true htarget ▸ (h.lt_of_child hx hcontent he).2
      . exact List.any_eq_true.mpr ⟨e, he, decide_eq_true htarget⟩

end Files

/-! ## When they agree -/

section Agree

/--
Both return the same children of the one node with the name, which are all its direct children, and
the same file, whatever the order in which the maps give their entries.
-/
def ExploresAlike (state : ProjectState) (name : Text) (target : NodeId) : Prop :=
  ∃ file children, ListsChildren state.graph state.symbols target children
    ∧ ∀ nodes, nodes ~ state.graph.allNodes → ∀ fileMap, fileMap ~ state.fileMap.toList →
      cmdExplore state.graph state.symbols nodes fileMap name = some ⟨some file, children⟩
        ∧ ∃ classes others,
          exploreTool state.graph state.symbols nodes fileMap name
            = some ⟨some file, children, classes, others⟩

/-- The node is right below a file, and its children of the listed kinds are on `Contains` edges. -/
structure Explorable (state : ProjectState) (target : NodeId) : Prop where
  onContains : ∀ e ∈ state.graph.getOutgoing target, ExploredTarget state.graph e →
    e.edgeType = .contains
  inFile : DirectlyInFile state target

variable {g : InMemoryGraph} {symbols : SymbolTable} {nodes : List GraphNode} {name : Text}
  {node : GraphNode}

theorem find?_eq_of_filter {p : GraphNode → Bool} (hnodes : nodes ~ g.allNodes)
    (h : g.allNodes.filter p = [node])
    : nodes.find? p = some node := by
  have hperm := hnodes.filter p
  rw [h, List.perm_singleton] at hperm
  rw [← List.head?_filter, hperm]
  rfl

theorem cmdExplore_eq (hnodes : nodes ~ g.allNodes)
    (h : g.allNodes.filter (BearsName symbols name) = [node]) (fileMap : List (Text × NodeId))
    : cmdExplore g symbols nodes fileMap name
        = some
          { file := Helpers.findFileForNode g fileMap node.id
            children :=
              .classify symbols (childrenOn g (onContains (g.getOutgoing node.id))) } := by
  have htest : (fun n : GraphNode =>
    n.kind.explorable.isSome && decide (nodeNameFromKind n.kind symbols = some name))
      = BearsName symbols name := by
    funext n
    rw [BearsName]
    cases n.kind <;> rfl
  rw [cmdExplore, htest, find?_eq_of_filter hnodes h]
  rfl

theorem exploreTool_eq (hnodes : nodes ~ g.allNodes)
    (h : g.allNodes.filter (BearsName symbols name) = [node]) (fileMap : List (Text × NodeId))
    : ∃ classes others, exploreTool g symbols nodes fileMap name
        = some
          { file := parentFile g fileMap node.id
            children := .classify symbols (childrenOn g (g.getOutgoing node.id))
            classes := classes
            others := others } := by
  have hfind : (nodes.find? fun n => n.kind.explorable.any fun id => symbols.resolve id = some name)
      = some node :=
    find?_eq_of_filter hnodes h
  rw [exploreTool, hfind]
  exact ⟨_, _, rfl⟩

/--
The command and the tool agree on a name that only one module, class, package or interface has if
and only if that node is a child of a file and all its ports, signals and so on are on `Contains`
edges.
-/
theorem exploresAlike_iff (parse : Text → Option Cst → Cst) (prepare : Text → Text → Text)
    (files : List FileRead) {name : Text} {node : GraphNode}
    (hnode : (loadFiles parse prepare files).graph.allNodes.filter
      (BearsName (loadFiles parse prepare files).symbols name) = [node])
    : ExploresAlike (loadFiles parse prepare files) name node.id
        ↔ Explorable (loadFiles parse prepare files) node.id := by
  obtain ⟨_, roots, log, hplanted⟩ := loadFiles_planted parse prepare files
  have hroot : node.id ∉ roots := by
    have ⟨hmem, hbears⟩ := List.mem_filter.mp (hnode ▸ List.mem_singleton_self node)
    intro hroot
    rw [BearsName, hplanted.rootNode node hmem hroot] at hbears
    simp [NodeKind.explorable] at hbears
  have hlists :=
    listsChildren_classify (loadFiles parse prepare files).symbols (hplanted.perm_childrenOn hroot)
  constructor
  . rintro ⟨file, children, hchildren, hall⟩
    constructor
    case onContains =>
      have hcmd := (hall _ (.refl _) _ (.refl _)).1
      rw [cmdExplore_eq (.refl _) hnode, Option.some.injEq, CmdExplored.mk.injEq] at hcmd
      apply contains_of_total (loadFiles parse prepare files).symbols
      rw [hcmd.2]
      exact hchildren.total_eq hlists
    case inFile =>
      apply (namesFile_iff parse prepare files node.id).mp
      refine ⟨file, fun fileMap hfileMap => ?_⟩
      have ⟨hcmd, classes, others, htool⟩ := hall _ (.refl _) fileMap hfileMap
      obtain ⟨_, _, htool'⟩ := exploreTool_eq (.refl _) hnode fileMap
      rw [cmdExplore_eq (.refl _) hnode, Option.some.injEq, CmdExplored.mk.injEq] at hcmd
      rw [htool', Option.some.injEq, ToolExplored.mk.injEq] at htool
      exact ⟨hcmd.1, htool.1⟩
  . intro hexplorable
    obtain ⟨file, hfile⟩ := (namesFile_iff parse prepare files node.id).mpr hexplorable.inFile
    refine ⟨file, _, hlists, ?_⟩
    intro nodes hnodes fileMap hfileMap
    have ⟨hcmd, htool⟩ := hfile fileMap hfileMap
    constructor
    . rw [cmdExplore_eq hnodes hnode, hcmd, classify_onContains hexplorable.onContains]
    . obtain ⟨classes, others, hexplore⟩ := exploreTool_eq hnodes hnode fileMap
      rw [htool] at hexplore
      exact ⟨classes, others, hexplore⟩

end Agree

def portState : ProjectState := loadOrBuild parsePort [portFile]

theorem filter_bearsName_port
    : portState.graph.allNodes.filter (BearsName portState.symbols "m".toList)
        = [⟨2, .module ⟨1⟩, none, 0, 1, 0⟩] := by
  decide +kernel

theorem exploresAlike_iff_port : ExploresAlike portState "m".toList 2 ↔ Explorable portState 2 :=
  exploresAlike_iff parsePort (fun source _ => source) [portFile] filter_bearsName_port

-- The port hangs on the module by a `Defines` edge, so that the command does not list it
theorem not_exploresAlike_port
    : portState.graph.allNodes.filter (BearsName portState.symbols "m".toList)
        = [⟨2, .module ⟨1⟩, none, 0, 1, 0⟩]
        ∧ ¬ExploresAlike portState "m".toList 2 := by
  refine ⟨filter_bearsName_port, ?_⟩
  rintro ⟨file, children, _, hall⟩
  have ⟨hcmd, classes, others, htool⟩ := hall _ (.refl _) _ (.refl _)
  have hnone : (cmdExplore portState.graph portState.symbols portState.graph.allNodes
      portState.fileMap.toList
      "m".toList).map (fun found => found.children.ports.length) = some 0 := by
    decide +kernel
  have hone : (exploreTool portState.graph portState.symbols portState.graph.allNodes
      portState.fileMap.toList
      "m".toList).map (fun found => found.children.ports.length) = some 1 := by
    decide +kernel
  rw [hcmd, Option.map_some, Option.some.injEq] at hnone
  rw [htool, Option.map_some, Option.some.injEq] at hone
  exact Nat.zero_ne_one (hnone.symm.trans hone)

end ProjectState
end HdlGraph
