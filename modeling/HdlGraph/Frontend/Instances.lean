import HdlGraph.Frontend.Impact
import HdlGraph.Parse.Extractor.Places
import HdlGraph.Project.TwoLevels
import HdlGraph.Project.Walks
import Mathlib.Data.List.Flatten

/-!
This module contains the search for the instances of a module type. The command line and the tool
server look two levels below the files, whereas generate constructs put instances at any depth.
-/

namespace HdlGraph

open scoped List
open Blocks

structure Instantiation where
  name : Text
  module : Text
  file : Text
  deriving DecidableEq, Repr

def Instantiation.line (i : Instantiation) : Text :=
  "  ".toList ++ i.name ++ " (in module ".toList ++ i.module ++ ", file ".toList
    ++ i.file ++ ")".toList

/-! ## The search -/

section Search

variable (g : InMemoryGraph) (symbols : SymbolTable)

def instantiationOf (moduleType parentName file : Text) (child : GraphNode)
    : Option Instantiation :=
  match child.kind with
  | .moduleInstance name mt =>
    if nameOr symbols mt = moduleType then some ⟨nameOr symbols name, parentName, file⟩ else none
  | _ => none

def instantiationsBelow (moduleType parentName file : Text) (containerId : NodeId)
    : List Instantiation :=
  (g.getOutgoing containerId).filterMap fun ce =>
    (g.getNode ce.target).bind (instantiationOf symbols moduleType parentName file)

def instantiationsIn (parentName : NodeKind InternedString → Option Text)
    (moduleType file : Text) (e : Edge)
    : List Instantiation :=
  if e.edgeType = .contains then
    match (g.getNode e.target).bind fun container => parentName container.kind with
    | some parentName => instantiationsBelow g symbols moduleType parentName file e.target
    | none => []
  else
    []

-- The loops of both commands; they differ in what a container is called and in whether it is
-- searched. `fileMap` is in the order in which the map happens to give its entries.
def listInstantiations (parentName : NodeKind InternedString → Option Text)
    (fileMap : List (Text × NodeId)) (moduleType : Text) : List Instantiation :=
  fileMap.flatMap fun (file, fid) =>
    (g.getOutgoing fid).flatMap (instantiationsIn g symbols parentName moduleType file)

namespace CmdInst

def parentName : NodeKind InternedString → Option Text
  | .module name => some (nameOr symbols name)
  | _ => some "?".toList

def found : List (Text × NodeId) → Text → List Instantiation :=
  listInstantiations g symbols (parentName symbols)

def cmdInst (fileMap : List (Text × NodeId)) (moduleType : Text) : Text :=
  println ("Instantiations of ".toList ++ moduleType ++ ":".toList)
    ++ ((found g symbols fileMap moduleType).flatMap fun i => println i.line)
    ++ if (found g symbols fileMap moduleType).isEmpty then println "  (none found)".toList else []

end CmdInst

namespace InstTool

def parentName : NodeKind InternedString → Option Text
  | .module name => some (nameOr symbols name)
  | _ => none

def results : List (Text × NodeId) → Text → List Instantiation :=
  listInstantiations g symbols (parentName symbols)

def run (fileMap : List (Text × NodeId)) (moduleType : Text) : Text :=
  if (results g symbols fileMap moduleType).isEmpty then
    "No instantiations found for: ".toList ++ moduleType
  else
    "Instantiations of ".toList ++ moduleType ++ ":\n".toList
      ++ (results g symbols fileMap moduleType).flatMap fun i => i.line ++ "\n".toList

end InstTool

end Search

/-! ## The instances of a project -/

namespace NodeKind

def instanceOf (moduleType : Text) : NodeKind Text → Option Text
  | moduleInstance name mt => if mt = moduleType then some name else none
  | _ => none

def moduleName : NodeKind Text → Option Text
  | module name => some name
  | _ => none

end NodeKind

namespace Outline

mutual

def instances (moduleType module file : Text) : Outline → List Instantiation
  | .node d children =>
    (d.kind.instanceOf moduleType).toList.map (⟨·, module, file⟩)
      ++ instancesAll moduleType (d.kind.moduleName.getD module) file children

def instancesAll (moduleType module file : Text) : List Outline → List Instantiation
  | [] => []
  | o :: os => instances moduleType module file o ++ instancesAll moduleType module file os

end

end Outline

namespace FileOutline

-- What is in no module is listed with the mark that the commands have for a missing name
def instances (moduleType file : Text) (outline : FileOutline) : List Instantiation :=
  outline.items.flatMap fun item => item.outline.instances moduleType "?".toList file

end FileOutline

namespace TopItem

/-- All instances of the type stand directly in a module with a name. -/
def ShowsInstances (moduleType : Text) : TopItem → Prop
  | module name _ items =>
    (∀ d ∈ Rose.labelsAll items, d.kind.instanceOf moduleType = none)
      ∨ name ≠ [] ∧ ∀ o ∈ items, ∀ d ∈ Rose.labelsAll o.children,
        d.kind.instanceOf moduleType = none
  | declared o => ∀ d ∈ o.labels, d.kind.instanceOf moduleType = none
  | .class o => ∀ d ∈ o.labels, d.kind.instanceOf moduleType = none

end TopItem

namespace ProjectState

variable (parse : Text → Option Cst → Cst) (prepare : Text → Text → Text) (files : List FileRead)
  (moduleType : Text)

def instancesOf (file : FileRead) : List Instantiation :=
  (outlineOf parse prepare file).elim [] fun outline => outline.instances moduleType file.rel

def allInstances : List Instantiation := files.flatMap (instancesOf parse prepare moduleType)

/--
Both commands list the instances of the type in all files, in whatever order the file map is gone
over. These are the `ModuleInstance` nodes of the type.
-/
structure ListsInstances : Prop where
  nodes : ((loadFiles parse prepare files).graph.allNodes.filterMap fun node =>
      (node.named (loadFiles parse prepare files).symbols).bind fun content =>
        content.kind.instanceOf moduleType)
    ~ (allInstances parse prepare files moduleType).map Instantiation.name
  cmdInst : ∀ fileMap, fileMap ~ (loadFiles parse prepare files).fileMap.toList →
    CmdInst.found (loadFiles parse prepare files).graph (loadFiles parse prepare files).symbols
        fileMap moduleType
      ~ allInstances parse prepare files moduleType
  instTool : ∀ fileMap, fileMap ~ (loadFiles parse prepare files).fileMap.toList →
    InstTool.results (loadFiles parse prepare files).graph (loadFiles parse prepare files).symbols
        fileMap moduleType
      ~ allInstances parse prepare files moduleType

/--
The instances of a file stand directly in its modules, and if there are any, its path is not loaded
again.
-/
def DirectInstances : Prop :=
  ∀ x ∈ placed parse prepare files, ∀ outline, outlineOf parse prepare x.2 = some outline →
    (∀ item ∈ outline.items, item.ShowsInstances moduleType)
      ∧ ((∃ item ∈ outline.items, ∃ d ∈ item.outline.labels,
          (d.kind.instanceOf moduleType).isSome) →
          lastUnder x.2.rel (placed parse prepare files) = some x)

end ProjectState

/-! ## Instances in outlines -/

section Outlines

variable {moduleType enclosing file : Text}

namespace Outline

mutual

theorem map_name_instances (moduleType module file : Text) : (o : Outline)
    → (o.instances moduleType module file).map Instantiation.name
        = o.labels.filterMap fun d => d.kind.instanceOf moduleType
  | .node d children => by
    rw [instances, Rose.labels, List.map_append, List.map_map, List.filterMap_cons]
    rw [map_name_instancesAll moduleType _ file children]
    cases d.kind.instanceOf moduleType <;> rfl

theorem map_name_instancesAll (moduleType module file : Text) : (os : List Outline)
    → (instancesAll moduleType module file os).map Instantiation.name
        = (Rose.labelsAll os).filterMap fun d => d.kind.instanceOf moduleType
  | [] => by simp [instancesAll]
  | o :: os => by
    rw [instancesAll, Rose.labelsAll_cons, List.map_append, List.filterMap_append,
      map_name_instances moduleType module file o, map_name_instancesAll moduleType module file os]

end

theorem instancesAll_eq_nil_iff {os : List Outline}
    : instancesAll moduleType enclosing file os = []
        ↔ ∀ d ∈ Rose.labelsAll os, d.kind.instanceOf moduleType = none := by
  rw [← List.map_eq_nil_iff (f := Instantiation.name), map_name_instancesAll,
    List.filterMap_eq_nil_iff]

theorem instances_eq_nil_iff {o : Outline}
    : o.instances moduleType enclosing file = []
        ↔ ∀ d ∈ o.labels, d.kind.instanceOf moduleType = none := by
  rw [← List.map_eq_nil_iff (f := Instantiation.name), map_name_instances,
    List.filterMap_eq_nil_iff]

theorem instancesAll_eq (os : List Outline)
    : instancesAll moduleType enclosing file os
        = os.flatMap (instances moduleType enclosing file) := by
  induction os with
  | nil => simp [instancesAll]
  | cons o os ih => rw [instancesAll, List.flatMap_cons, ih]

def ownInstances (moduleType enclosing file : Text) (o : Outline) : List Instantiation :=
  (o.label.kind.instanceOf moduleType).toList.map (⟨·, enclosing, file⟩)

theorem ownInstances_sublist (o : Outline)
    : o.ownInstances moduleType enclosing file <+ o.instances moduleType enclosing file := by
  cases o
  rw [ownInstances, Rose.label, instances]
  exact List.sublist_append_left _ _

theorem ownInstances_eq_iff (o : Outline)
    : o.ownInstances moduleType enclosing file = o.instances moduleType enclosing file
        ↔ ∀ d ∈ Rose.labelsAll o.children, d.kind.instanceOf moduleType = none := by
  cases o
  rw [ownInstances, Rose.label, instances, List.self_eq_append_right, instancesAll_eq_nil_iff,
    Rose.children]

end Outline

namespace TopItem

def shownInstances (moduleType file : Text) : TopItem → List Instantiation
  | module name _ items =>
    if name = [] then [] else items.flatMap (Outline.ownInstances moduleType name file)
  | _ => []

theorem instances_module (moduleType file name : Text) (pos : Position) (items : List Outline)
    : (TopItem.module name pos items).outline.instances moduleType "?".toList file
        = items.flatMap (Outline.instances moduleType name file) := by
  rw [outline, Outline.instances, ← Outline.instancesAll_eq]
  rfl

theorem shownInstances_sublist (moduleType file : Text) (item : TopItem)
    : item.shownInstances moduleType file <+ item.outline.instances moduleType "?".toList file := by
  cases item with
  | declared o => exact List.nil_sublist _
  | «class» o => exact List.nil_sublist _
  | module name pos items =>
    rw [shownInstances, instances_module]
    split
    . exact List.nil_sublist _
    . exact List.Sublist.flatMap_right items fun o _ => o.ownInstances_sublist

theorem shownInstances_eq_iff (moduleType file : Text) (item : TopItem)
    : item.shownInstances moduleType file = item.outline.instances moduleType "?".toList file
        ↔ item.ShowsInstances moduleType := by
  cases item with
  | declared o => exact eq_comm.trans Outline.instances_eq_nil_iff
  | «class» o => exact eq_comm.trans Outline.instances_eq_nil_iff
  | module name pos items =>
    have hsublist := shownInstances_sublist moduleType file (.module name pos items)
    have hnone : items.flatMap (Outline.instances moduleType name file) = []
        ↔ ∀ d ∈ Rose.labelsAll items, d.kind.instanceOf moduleType = none := by
      rw [← Outline.instancesAll_eq, Outline.instancesAll_eq_nil_iff]
    have hdirect : items.flatMap (Outline.ownInstances moduleType name file)
          ~ items.flatMap (Outline.instances moduleType name file)
        ↔ ∀ o ∈ items, ∀ d ∈ Rose.labelsAll o.children, d.kind.instanceOf moduleType = none := by
      rw [Chunks.flatMap_perm_iff fun o _ => o.ownInstances_sublist]
      simp only [Outline.ownInstances_eq_iff]
    rw [instances_module] at hsublist ⊢
    rw [ShowsInstances, ← hnone, ← hdirect]
    by_cases hname : name = []
    . rw [shownInstances, if_pos hname]
      constructor
      . intro heq
        exact Or.inl heq.symm
      . rintro (hnil | ⟨hne, _⟩)
        . exact hnil.symm
        . exact absurd hname hne
    . rw [shownInstances, if_neg hname] at hsublist ⊢
      constructor
      . intro heq
        exact Or.inr ⟨hname, .of_eq heq⟩
      . rintro (hnil | ⟨_, hperm⟩)
        . rw [hnil, List.sublist_nil] at hsublist
          rw [hsublist, hnil]
        . exact hsublist.eq_of_length hperm.length_eq

end TopItem
end Outlines

/-! ## What the commands read of a node -/

section Reading

variable {symbols : SymbolTable} {node : GraphNode} {content : NamedNode}

inductive KindRead (symbols : SymbolTable) : NodeKind InternedString → NodeKind Text → Prop where
  | module {name : InternedString} {text : Text} (hname : symbols.resolve name = some text) :
    KindRead symbols (.module name) (.module text)
  | moduleInstance {name mt : InternedString} {text mtText : Text}
      (hname : symbols.resolve name = some text)
    (hmt : symbols.resolve mt = some mtText) : KindRead symbols (.moduleInstance name mt)
    (.moduleInstance text mtText)
  | other {kind : NodeKind InternedString} {named : NodeKind Text}
      (hmodule : ∀ name, kind ≠ .module name)
    (hinstance : ∀ name mt, kind ≠ .moduleInstance name mt) (hname : named.moduleName = none)
    (hinstanceOf : ∀ moduleType, named.instanceOf moduleType = none) : KindRead symbols kind named

theorem kindRead_of_named (h : node.named symbols = some content)
    : KindRead symbols node.kind content.kind := by
  have hsays := GraphNode.says_of_named h
  generalize node.kind = kind at hsays ⊢
  generalize content.kind = named at hsays ⊢
  cases hsays with
  | module hname => exact .module hname
  | moduleInstance hname hmt => exact .moduleInstance hname hmt
  | _ => exact .other (by simp) (by simp) rfl fun _ => rfl

theorem instantiationOf_eq (h : node.named symbols = some content)
    (moduleType parentName file : Text)
    : instantiationOf symbols moduleType parentName file node
        = (content.kind.instanceOf moduleType).map (⟨·, parentName, file⟩) := by
  unfold instantiationOf
  have hread := kindRead_of_named h
  generalize node.kind = kind at hread ⊢
  generalize content.kind = named at hread ⊢
  cases hread with
  | module hname => rfl
  | moduleInstance hname hmt =>
    simp only [nameOr, hmt, hname, Option.getD_some, NodeKind.instanceOf]
    split <;> rfl
  | other hmodule hinstance hname hinstanceOf =>
    rw [hinstanceOf, Option.map_none]
    split
    . exact absurd rfl (hinstance _ _)
    . rfl

theorem InstTool.parentName_eq (h : node.named symbols = some content)
    : InstTool.parentName symbols node.kind = content.kind.moduleName := by
  unfold InstTool.parentName
  have hread := kindRead_of_named h
  generalize node.kind = kind at hread ⊢
  generalize content.kind = named at hread ⊢
  cases hread with
  | module hname => simp only [nameOr, hname, NodeKind.moduleName, Option.getD_some]
  | moduleInstance hname hmt => rfl
  | other hmodule hinstance hname hinstanceOf =>
    rw [hname]
    split
    . exact absurd rfl (hmodule _)
    . rfl

theorem CmdInst.parentName_eq (h : node.named symbols = some content)
    : CmdInst.parentName symbols node.kind = some (content.kind.moduleName.getD "?".toList) := by
  rw [← InstTool.parentName_eq h]
  generalize node.kind = kind
  cases kind <;> rfl

end Reading

/-! ## The search in one file -/

/--
What a container is called is read off its kind with the names, and a module is called by its name.
-/
structure Reads (symbols : SymbolTable) (parentName : NodeKind InternedString → Option Text)
    (read : NodeKind Text → Option Text) : Prop where
  parentName : ∀ node content, GraphNode.named symbols node = some content →
    parentName node.kind = read content.kind
  module : ∀ name, read (.module name) = some name

theorem CmdInst.reads (symbols : SymbolTable)
    : Reads symbols (CmdInst.parentName symbols) fun kind =>
        some (kind.moduleName.getD "?".toList) where
  parentName _ _ h := CmdInst.parentName_eq h
  module _ := rfl

theorem InstTool.reads (symbols : SymbolTable)
    : Reads symbols (InstTool.parentName symbols) NodeKind.moduleName where
  parentName _ _ h := InstTool.parentName_eq h
  module _ := rfl

def TopItem.Skipped (read : NodeKind Text → Option Text) (moduleType : Text) : TopItem → Prop
  | module _ _ _ => True
  | declared o => read o.label.kind = none ∨ ∀ d ∈ o.labels, d.kind.instanceOf moduleType = none
  | .class o => read o.label.kind = none ∨ ∀ d ∈ o.labels, d.kind.instanceOf moduleType = none

section Loops

variable {symbols : SymbolTable} {parentName : NodeKind InternedString → Option Text}
  {read : NodeKind Text → Option Text}
variable {moduleType file : Text}

def listedBelow (read : NodeKind Text → Option Text) (moduleType file : Text)
    (container child : NodeKind Text)
    : List Instantiation :=
  (read container).elim [] fun name => (child.instanceOf moduleType).toList.map (⟨·, name, file⟩)

theorem listInstantiations_eq (g : InMemoryGraph) (symbols : SymbolTable)
    (parentName : NodeKind InternedString → Option Text) (fileMap : List (Text × NodeId))
    (moduleType : Text)
    : listInstantiations g symbols parentName fileMap moduleType
        = g.visitTwoLevels (fun _ _ _ => []) (fun file node _ child =>
            (parentName node.kind).elim [] fun name =>
              (instantiationOf symbols moduleType name file child).toList)
            fileMap := by
  apply List.flatMap_congr
  intro entry _
  apply List.flatMap_congr
  intro e _
  rw [instantiationsIn]
  split
  . cases g.getNode e.target with
    | none => rfl
    | some node =>
      simp only [Option.bind_some, List.nil_append]
      cases parentName node.kind with
      | none =>
        symm
        rw [List.flatMap_eq_nil_iff]
        intro ce _
        cases g.getNode ce.target <;> rfl
      | some name =>
        simp only [instantiationsBelow, List.filterMap_eq_flatMap_toList]
        apply List.flatMap_congr
        intro ce _
        cases g.getNode ce.target <;> rfl
  . rfl

theorem Reads.readsTwoLevels (hread : Reads symbols parentName read) (moduleType : Text)
    : ReadsTwoLevels symbols (fun _ _ _ => []) (fun file node _ child =>
        (parentName node.kind).elim [] fun name =>
          (instantiationOf symbols moduleType name file child).toList)
      (fun _ _ _ => [])
      (fun file node _ child => listedBelow read moduleType file node.kind child.kind) where
  top _ _ _ _ _ := rfl
  below _ node content _ _ _ hnode hchild := by
    simp only [hread.parentName node content hnode, instantiationOf_eq hchild, listedBelow,
      Option.toList_map]

namespace TopItem

theorem flatMap_childrenAt (item : TopItem) (f : NodeKind Text → List Instantiation) (b : NodeId)
    : ((item.childrenAt b).flatMap fun c => f c.2.kind) = item.outline.children.flatMap fun o =>
        f o.label.kind := by
  have hmap :=
    congrArg (List.flatMap fun c : EdgeType × NodeKind Text => f c.2) (item.map_snd_childrenAt b)
  rwa [List.flatMap_map, List.flatMap_map] at hmap

theorem seen_eq_nil (item : TopItem) (hskipped : read item.outline.label.kind = none
      ∨ ∀ d ∈ item.outline.labels, d.kind.instanceOf moduleType = none) (b : NodeId)
    : item.seen (fun _ => [])
        (fun node _ child => listedBelow read moduleType file node.kind child.kind) b = [] := by
  rw [seen, List.flatMap_eq_nil_iff]
  intro _ _
  refine (item.flatMap_childrenAt (listedBelow read moduleType file item.outline.label.kind)
    b).trans ?_
  rw [List.flatMap_eq_nil_iff]
  intro o ho
  rcases hskipped with hread | hlabels
  . rw [listedBelow, hread, Option.elim_none]
  . have hlabel : o.label ∈ o.labels := by
      rw [Rose.labels_eq]
      exact List.mem_cons_self
    rw [Rose.labels_eq, List.forall_mem_cons] at hlabels
    rw [listedBelow, hlabels.2 _ (Rose.labels_subset_labelsAll ho hlabel)]
    cases read item.outline.label.kind <;> rfl

theorem seen_eq_shownInstances {item : TopItem} (hmodule : ∀ name, read (.module name) = some name)
    (hskipped : item.Skipped read moduleType) (b : NodeId)
    : item.seen (fun _ => [])
          (fun node _ child => listedBelow read moduleType file node.kind child.kind) b
        = item.shownInstances moduleType file := by
  cases item with
  | declared o => exact (declared o).seen_eq_nil hskipped b
  | «class» o => exact (TopItem.class o).seen_eq_nil hskipped b
  | module name pos items =>
    rw [seen, shownInstances, visits]
    split
    . rfl
    . rw [List.replicate_one, List.flatMap_singleton, List.nil_append]
      refine ((TopItem.module name pos items).flatMap_childrenAt
        (listedBelow read moduleType file (.module name)) b).trans ?_
      apply List.flatMap_congr
      intro o _
      rw [listedBelow, hmodule, Option.elim_some, Outline.ownInstances]

end TopItem
end Loops

namespace ProjectState

variable {parse : Text → Option Cst → Cst} {prepare : Text → Text → Text} {files : List FileRead}
variable {st : InMemoryGraph × GraphExtractor × Dict Text NodeId} {x : Nat × FileRead}
  {outline : FileOutline}
variable {moduleType : Text}

/-! ## The search in all files -/

section Files

variable {parentName : NodeKind InternedString → Option Text} {read : NodeKind Text → Option Text}

variable (parse prepare files moduleType) in
def shownOf (x : Nat × FileRead) : List Instantiation :=
  if lastUnder x.2.rel (placed parse prepare files) = some x then
    (outlineOf parse prepare x.2).elim [] fun outline =>
      outline.items.flatMap (TopItem.shownInstances moduleType x.2.rel)
  else
    []

theorem seenIn_eq_shownOf (hmodule : ∀ name, read (.module name) = some name)
    (hskipped : ∀ outline, outlineOf parse prepare x.2 = some outline → ∀ item ∈ outline.items,
      item.Skipped read moduleType)
    : seenIn parse prepare files (fun _ _ _ => [])
          (fun file node _ child => listedBelow read moduleType file node.kind child.kind) x
        = shownOf parse prepare files moduleType x := by
  rw [seenIn, shownOf]
  split
  . cases hout : outlineOf parse prepare x.2 with
    | none => rfl
    | some outline =>
      have hitems := outline.map_snd_placedItems x.1
      rw [Option.elim_some, Option.elim_some]
      have hskipped := hskipped outline hout
      rw [← hitems] at hskipped ⊢
      rw [List.flatMap_map]
      apply List.flatMap_congr
      intro y hy
      exact TopItem.seen_eq_shownInstances hmodule (hskipped y.2 (List.mem_map_of_mem hy)) y.1
  . rfl

theorem Loaded.perm_listInstantiations (h : Loaded parse prepare files st)
    (hread : Reads st.2.1.symbols parentName read)
    (hskipped : ∀ x ∈ placed parse prepare files,
      ∀ outline, outlineOf parse prepare x.2 = some outline →
      ∀ item ∈ outline.items, item.Skipped read moduleType)
    {fileMap : List (Text × NodeId)} (hfileMap : fileMap ~ st.2.2.toList)
    : listInstantiations st.1 st.2.1.symbols parentName fileMap moduleType
        ~ (placed parse prepare files).flatMap (shownOf parse prepare files moduleType) := by
  rw [listInstantiations_eq]
  refine (h.perm_visitTwoLevels (hread.readsTwoLevels moduleType) hfileMap).trans (.of_eq ?_)
  exact List.flatMap_congr fun x hx => seenIn_eq_shownOf hread.module (hskipped x hx)

theorem allInstances_eq
    : allInstances parse prepare files moduleType
        = (placed parse prepare files).flatMap fun x =>
          instancesOf parse prepare moduleType x.2 := by
  have hfiles : (placed parse prepare files).map Prod.snd = files := map_snd_place _ _
  have hmap := congrArg (List.flatMap (instancesOf parse prepare moduleType)) hfiles
  rw [List.flatMap_map] at hmap
  exact hmap.symm

theorem instancesOf_of_some {file : FileRead} (hout : outlineOf parse prepare file = some outline)
    : instancesOf parse prepare moduleType file = outline.instances moduleType file.rel := by
  rw [instancesOf, hout, Option.elim_some]

theorem instances_eq_nil_iff
    : outline.instances moduleType file = []
        ↔ ¬∃ item ∈ outline.items, ∃ d ∈ item.outline.labels,
          (d.kind.instanceOf moduleType).isSome := by
  rw [FileOutline.instances, List.flatMap_eq_nil_iff]
  simp only [Outline.instances_eq_nil_iff, ← Option.not_isSome_iff_eq_none]
  push Not
  rfl

theorem flatMap_shownInstances_sublist (outline : FileOutline) (moduleType file : Text)
    : outline.items.flatMap (TopItem.shownInstances moduleType file)
        <+ outline.instances moduleType file :=
  List.Sublist.flatMap_right _ fun item _ => item.shownInstances_sublist moduleType file

theorem shownOf_sublist (x : Nat × FileRead)
    : shownOf parse prepare files moduleType x <+ instancesOf parse prepare moduleType x.2 := by
  rw [shownOf]
  split
  . cases hout : outlineOf parse prepare x.2 with
    | none => exact List.nil_sublist _
    | some outline =>
      rw [instancesOf_of_some hout, Option.elim_some]
      exact flatMap_shownInstances_sublist outline moduleType x.2.rel
  . exact List.nil_sublist _

theorem shownOf_eq_iff (x : Nat × FileRead)
    : shownOf parse prepare files moduleType x = instancesOf parse prepare moduleType x.2
        ↔ ∀ outline, outlineOf parse prepare x.2 = some outline →
          (∀ item ∈ outline.items, item.ShowsInstances moduleType)
            ∧ ((∃ item ∈ outline.items, ∃ d ∈ item.outline.labels,
                (d.kind.instanceOf moduleType).isSome) →
                lastUnder x.2.rel (placed parse prepare files) = some x) := by
  cases hout : outlineOf parse prepare x.2 with
  | none => simp [shownOf, instancesOf, hout]
  | some outline =>
    have hsublist := flatMap_shownInstances_sublist outline moduleType x.2.rel
    have hshown : outline.items.flatMap (TopItem.shownInstances moduleType x.2.rel)
        ~ outline.instances moduleType x.2.rel
        ↔ ∀ item ∈ outline.items, item.ShowsInstances moduleType := by
      rw [FileOutline.instances, Chunks.flatMap_perm_iff fun item _ =>
        item.shownInstances_sublist moduleType x.2.rel]
      simp only [TopItem.shownInstances_eq_iff]
    rw [instancesOf_of_some hout, shownOf, hout, Option.elim_some]
    split
    . next hlast =>
      constructor
      . intro heq _ hsame
        obtain rfl := Option.some.inj hsame
        exact ⟨hshown.mp (.of_eq heq), fun _ => hlast⟩
      . intro hall
        exact hsublist.eq_of_length (hshown.mpr (hall outline rfl).1).length_eq
    . next hlast =>
      constructor
      . intro hnil _ hsame
        obtain rfl := Option.some.inj hsame
        have hnone := instances_eq_nil_iff.mp hnil.symm
        rw [← hnil, List.sublist_nil] at hsublist
        rw [← hnil, hsublist] at hshown
        exact ⟨hshown.mp (.refl _), fun hsome => absurd hsome hnone⟩
      . intro hall
        rw [eq_comm, instances_eq_nil_iff]
        intro hsome
        exact hlast ((hall outline rfl).2 hsome)

theorem directInstances_iff
    : DirectInstances parse prepare files moduleType
        ↔ (placed parse prepare files).flatMap (shownOf parse prepare files moduleType)
            ~ allInstances parse prepare files moduleType := by
  rw [allInstances_eq, Chunks.flatMap_perm_iff fun x _ => shownOf_sublist x, DirectInstances]
  simp only [shownOf_eq_iff]

end Files
end ProjectState

/-! ## The nodes of the instances -/

namespace TopItem

theorem filterMap_nodesAt (root b : NodeId) (item : TopItem) (moduleType : Text)
    : (item.nodesAt root b).filterMap (fun content => content.kind.instanceOf moduleType)
        = item.outline.labels.filterMap fun d => d.kind.instanceOf moduleType := by
  have hnodes : ∀ xs : List (Rose.Placement Declared),
      (ExtractM.nodesOf xs).filterMap (fun content => content.kind.instanceOf moduleType)
        = (xs.map Rose.Placement.label).filterMap fun d => d.kind.instanceOf moduleType := by
    intro xs
    rw [ExtractM.nodesOf, List.filterMap_map, List.filterMap_map]
    rfl
  cases item with
  | declared o => rw [nodesAt, outline, hnodes, Rose.map_label_place]
  | «class» o => rw [nodesAt, outline, hnodes, Rose.map_label_place]
  | module name pos items =>
    rw [nodesAt, outline, List.filterMap_append, hnodes, Rose.map_label_placeAll, Rose.labels,
      List.filterMap_cons]
    have hmodule : NodeKind.instanceOf moduleType (.module name) = none := rfl
    split <;> simp [hmodule, Declared.namedNode]

end TopItem

theorem FileOutline.filterMap_nodesAt (b : NodeId) (outline : FileOutline) (moduleType file : Text)
    : (outline.nodesAt b).filterMap (fun content => content.kind.instanceOf moduleType)
        = (outline.instances moduleType file).map Instantiation.name := by
  have hitems := outline.map_snd_placedItems b
  rw [outline.nodesAt_eq, List.filterMap_cons_none (by rfl), List.filterMap_flatMap, instances,
    ← hitems, List.flatMap_map, List.map_flatMap]
  apply List.flatMap_congr
  intro y _
  rw [TopItem.filterMap_nodesAt, Outline.map_name_instances]

namespace ProjectState

variable {parse : Text → Option Cst → Cst} {prepare : Text → Text → Text} {files : List FileRead}

theorem Loaded.perm_instances {st : InMemoryGraph × GraphExtractor × Dict Text NodeId}
    (h : Loaded parse prepare files st) (moduleType : Text)
    : (st.1.allNodes.filterMap fun node =>
          (node.named st.2.1.symbols).bind fun content => content.kind.instanceOf moduleType)
        ~ (allInstances parse prepare files moduleType).map Instantiation.name := by
  have hnodes :=
    h.nodes.filterMap fun named => named.bind fun content => content.kind.instanceOf moduleType
  rw [List.filterMap_map, List.filterMap_flatMap] at hnodes
  refine hnodes.trans (.of_eq ?_)
  rw [allInstances_eq, List.map_flatMap]
  apply List.flatMap_congr
  intro x _
  cases hout : outlineOf parse prepare x.2 with
  | none =>
    rw [subgraphAt, instancesOf, hout, Option.elim_none, Option.elim_none,
      List.filterMap_nil, List.map_nil]
  | some outline =>
    rw [subgraphAt_of_some hout, instancesOf_of_some hout, List.filterMap_map,
      ← outline.filterMap_nodesAt x.1]
    rfl

end ProjectState

/-! ## Where the search is complete -/

namespace GraphExtractor

theorem skipped_topItems (moduleType : Text) (child : Cst)
    : ∀ item ∈ topItems child, item.Skipped NodeKind.moduleName moduleType := by
  have hdeclared : ∀ os : List Outline, (∀ o ∈ os, o.label.kind.moduleName = none) →
      ∀ item ∈ os.map TopItem.declared, item.Skipped NodeKind.moduleName moduleType := by
    intro os hos item hitem
    obtain ⟨o, ho, rfl⟩ := List.mem_map.mp hitem
    exact Or.inl (hos o ho)
  unfold topItems
  split
  . simp [TopItem.Skipped]
  . apply hdeclared
    simp only [namedOutline]
    split <;> simp [Outline.leaf, Rose.label, NodeKind.moduleName]
  . apply hdeclared
    simp only [bindOutline]
    split <;> simp [Outline.leaf, Rose.label, NodeKind.moduleName]
  . apply hdeclared
    simp only [packageOutline]
    split <;> simp [Rose.label, NodeKind.moduleName]
  . apply hdeclared
    simp only [interfaceOutline]
    split <;> simp [Rose.label, NodeKind.moduleName]
  . cases child
    rw [classOutline]
    split <;> simp [TopItem.Skipped, Rose.label, NodeKind.moduleName]
  . simp

end GraphExtractor

namespace ProjectState

variable (parse : Text → Option Cst → Cst) (prepare : Text → Text → Text) (files : List FileRead)
  (moduleType : Text)

theorem listsInstances_iff
    : ListsInstances parse prepare files moduleType
        ↔ DirectInstances parse prepare files moduleType := by
  have h := loaded_foldl parse prepare files
  have htool : ∀ x ∈ placed parse prepare files,
      ∀ outline, outlineOf parse prepare x.2 = some outline →
      ∀ item ∈ outline.items, item.Skipped NodeKind.moduleName moduleType := by
    intro x _ outline hout item hitem
    obtain ⟨content, _, rfl⟩ := Option.map_eq_some_iff.mp hout
    obtain ⟨child, _, hitem⟩ := List.mem_flatMap.mp hitem
    exact GraphExtractor.skipped_topItems moduleType child item hitem
  constructor
  . intro hlists
    have hresults := hlists.instTool _ (.refl _)
    rw [directInstances_iff]
    exact (h.perm_listInstantiations (InstTool.reads _) htool (.refl _)).symm.trans hresults
  . intro hdirect
    have hshown := directInstances_iff.mp hdirect
    refine ⟨h.perm_instances moduleType, ?_, ?_⟩
    . intro fileMap hfileMap
      refine (h.perm_listInstantiations (CmdInst.reads _) ?_ hfileMap).trans hshown
      intro x hx outline hout item hitem
      have hshows := (hdirect x hx outline hout).1 item hitem
      cases item with
      | declared o => exact Or.inr hshows
      | «class» o => exact Or.inr hshows
      | module name pos items => trivial
    . intro fileMap hfileMap
      exact (h.perm_listInstantiations (InstTool.reads _) htool hfileMap).trans hshown

def parseGenerated (text : Text) (_old : Option Cst) : Cst :=
  .node .other [] text ⟨0, 0⟩ [
    .node .moduleDeclaration [] text ⟨0, 0⟩ [
      .node .moduleAnsiHeader [] "module m;".toList ⟨0, 0⟩
      [.node .simpleIdentifier [.name] "m".toList ⟨0, 7⟩ []],
      .node .generateRegion [] "generate cell u0(); endgenerate".toList ⟨0, 10⟩
      [cellInstance .moduleInstantiation]]]

def generatedFile : FileRead :=
  ⟨"m.sv".toList, some "module m; generate cell u0(); endgenerate endmodule".toList⟩

-- Neither command looks below the generate block
theorem not_listsInstances_generated
    : ¬ListsInstances parseGenerated (fun source _ => source) [generatedFile] "cell".toList := by
  intro h
  have hlength := (h.instTool _ (.refl _)).length_eq
  revert hlength
  decide +kernel

end ProjectState
end HdlGraph
