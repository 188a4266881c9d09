import HdlGraph.Frontend.Definitions
import HdlGraph.Library.Forest
import HdlGraph.Project.Walks

/-!
This module contains the hierarchy of the classes. Both frontends collect the classes with the names
of their parents, print those without a parent, and go on from each name to the classes that have it
as their parent.
-/

namespace HdlGraph

open scoped List
open Relation

namespace TypeHierarchy

/-! ## The printer -/

section Printer

variable (types : List (Text × Option Text))

def typeSteps (depth : Nat) (parent : Text) : List (Walk.Step Text (Nat × Text)) :=
  types.filterMap fun (name, p) =>
    if p = some parent then some ⟨[(depth, name)], some name⟩ else none

def printTypeChildren (fuel depth : Nat) (parent : Text) : Option (List (Nat × Text)) :=
  Walk.run (typeSteps types) fuel depth parent

def topLevel : List Text := (types.filter fun (_, p) => p.isNone).map Prod.fst

def hierarchy (fuel : Nat) : Option (List (Nat × Text)) :=
  Walk.collect (printTypeChildren types fuel 2)
    ((topLevel types).map fun top => ⟨[(1, top)], some top⟩)

def lineText (line : Nat × Text) : Text := indent line.1 ++ line.2

end Printer

section Commands

variable (g : InMemoryGraph) (symbols : SymbolTable)

def classType (kind : NodeKind InternedString) : Option (Text × Option Text) :=
  match kind with
  | .class name parent => some ((symbols.resolve name).getD "?".toList, parent.bind symbols.resolve)
  | _ => none

-- The command line looks at what is below the items of the files
def uvmTypes (fileMap : List (Text × NodeId)) : List (Text × Option Text) :=
  g.visitTwoLevels (fun _ _ _ => []) (fun _ _ _ child => (classType symbols child.kind).toList)
    fileMap

def cmdUvmHierarchy (fileMap : List (Text × NodeId)) (fuel : Nat) : Option Text :=
  if (uvmTypes g symbols fileMap).isEmpty then
    some (println "UVM Type Hierarchy:".toList ++ println "  (no class hierarchy found)".toList)
  else
    (hierarchy (uvmTypes g symbols fileMap) fuel).map fun lines =>
      println "UVM Type Hierarchy:".toList ++ lines.flatMap fun line => println (lineText line)

-- The tool server goes over all nodes, in the order in which their map hands them out
def classes (nodes : List GraphNode) : List (Text × Option Text) :=
  nodes.filterMap fun node => classType symbols node.kind

def uvmHierarchy (nodes : List GraphNode) (fuel : Nat) : Option Text :=
  if (classes symbols nodes).isEmpty then
    some "No UVM classes found".toList
  else
    (hierarchy (classes symbols nodes) fuel).map fun lines =>
      "UVM Class Hierarchy:\n".toList ++ lines.flatMap fun line => println (lineText line)

end Commands

/-! ## Termination -/

section Termination

variable (types : List (Text × Option Text))

def Extends (name parent : Text) : Prop := (name, some parent) ∈ types

def Prints (lines : List (Nat × Text)) : Prop :=
  ∃ bound, ∀ fuel, bound < fuel → hierarchy types fuel = some lines

def HierarchyEnds : Prop := ∃ lines, Prints types lines

/-- No class that has a class without a parent among its ancestors is its own ancestor. -/
def EntersNoCycle : Prop :=
  ∀ root, (root, none) ∈ types → ∀ name, ReflTransGen (Extends types) name root →
    ¬TransGen (Extends types) name name

def childrenOf (parent : Text) : List Text :=
  (types.filter fun (_, p) => p = some parent).map Prod.fst

variable {types}

theorem mem_childrenOf {name parent : Text} : name ∈ childrenOf types parent
    ↔ Extends types name parent := by
  simp [childrenOf, Extends]

theorem mem_topLevel {name : Text} : name ∈ topLevel types ↔ (name, none) ∈ types := by
  simp [topLevel]

theorem topLevel_eq (types : List (Text × Option Text))
    : topLevel types = (types.filter fun (_, p) => p = none).map Prod.fst := by
  rw [topLevel]
  congr 2
  funext ⟨_, p⟩
  cases p <;> rfl

theorem typeSteps_eq (depth : Nat) (parent : Text)
    : typeSteps types depth parent = (childrenOf types parent).map fun name =>
        ⟨[(depth, name)], some name⟩ := by
  rw [typeSteps, childrenOf, List.map_map, ← List.filterMap_eq_map, List.filterMap_filter]
  apply List.filterMap_congr
  rintro ⟨name, p⟩ _
  by_cases hp : p = some parent <;> simp [hp]

theorem next_typeSteps (depth : Nat) (parent : Text)
    : (typeSteps types depth parent).filterMap Walk.Step.next = childrenOf types parent := by
  rw [typeSteps_eq, List.filterMap_map]
  exact List.filterMap_some

theorem step_eq_swap_extends : Forest.Step (childrenOf types) = Function.swap (Extends types) := by
  funext parent name
  exact propext mem_childrenOf

theorem hierarchyEnds_iff_terminates
    : HierarchyEnds types ↔ ∀ top ∈ topLevel types, Walk.Terminates (typeSteps types) 2 top := by
  constructor
  . rintro ⟨lines, bound, hlines⟩ top htop
    have hsome : (hierarchy types (bound + 1)).isSome := by
      rw [hlines (bound + 1) (Nat.lt_succ_self _)]
      rfl
    have hrun := Walk.isSome_of_collect hsome _ (List.mem_map_of_mem htop) top rfl
    exact Forest.terminates_of_acc next_typeSteps (Forest.acc_of_run next_typeSteps hrun) 2
  . intro h
    refine Walk.collect_of_terminates ?_
    intro step hstep w hw
    obtain ⟨top, htop, rfl⟩ := List.mem_map.mp hstep
    obtain rfl : top = w := by simpa using hw
    exact h top htop

theorem finite_below (name : Text)
    : {w | ReflTransGen (Forest.Step (childrenOf types)) name w}.Finite :=
  Forest.finite_reach (types.map Prod.fst)
    (fun _ => List.map_subset _ (List.filter_sublist (l := types)).subset) name

variable (types)

/--
The printer returns if and only if no cycle of names can be entered from a class without a parent.
-/
theorem hierarchyEnds_iff : HierarchyEnds types ↔ EntersNoCycle types := by
  rw [hierarchyEnds_iff_terminates]
  apply forall_congr'
  intro top
  rw [mem_topLevel, Forest.terminates_iff_acc next_typeSteps,
    Forest.acc_iff_acyclic (finite_below top), step_eq_swap_extends]
  apply imp_congr_right
  intro _
  apply forall_congr'
  intro name
  rw [reflTransGen_swap, transGen_swap]

theorem not_hierarchyEnds_twice
    : ¬HierarchyEnds [("a".toList, none), ("b".toList, some "a".toList),
        ("a".toList, some "b".toList)] := by
  rw [hierarchyEnds_iff_terminates]
  intro h
  have hacc := (Forest.terminates_iff_acc next_typeSteps).mp (h "a".toList (by decide))
  rw [Forest.acc_iff_acyclic (finite_below _)] at hacc
  apply hacc "a".toList .refl
  exact .head (mem_childrenOf.mpr (by decide : ("b".toList, some "a".toList) ∈ _))
    (.single (mem_childrenOf.mpr (by decide : ("a".toList, some "b".toList) ∈ _)))

end Termination

/-! ## What is printed -/

section Contents

variable (types : List (Text × Option Text))

def names : List Text := types.map Prod.fst

def DirectlyUnder (lines : List (Nat × Text)) (parent name : Text) : Prop :=
  ∃ depth before between after,
    lines = before ++ (depth, parent) :: between ++ (depth + 1, name) :: after
      ∧ ∀ line ∈ between, depth < line.1

/-- Every class is printed once: under its parent if there is one, as a root otherwise. -/
structure ListsOnce (lines : List (Nat × Text)) : Prop where
  once : lines.map Prod.snd ~ names types
  under : ∀ name parent, (name, some parent) ∈ types → parent ∈ names types →
    DirectlyUnder lines parent name
  root : ∀ name parent, (name, parent) ∈ types → (∀ p, parent = some p → p ∉ names types) →
    (1, name) ∈ lines

def ParentsIndexed : Prop := ∀ name parent, Extends types name parent → parent ∈ names types

variable {types}

theorem listing_of_hierarchy {fuel : Nat} {lines : List (Nat × Text)}
    (h : hierarchy types fuel = some lines)
    : Forest.Listing (childrenOf types) 1 (topLevel types) lines := by
  have hsteps : typeSteps types = fun depth parent => (childrenOf types parent).map fun name =>
    ⟨[(depth, name)], some name⟩ := by
    funext depth parent
    exact typeSteps_eq depth parent
  have hcollect : Walk.collect (Walk.run (typeSteps types) fuel 2)
      ((topLevel types).map fun top => ⟨[(1, top)], some top⟩) = some lines := h
  rw [hsteps] at hcollect
  exact Forest.listing_of_collect hcollect

theorem eq_of_mem_types (hnodup : (names types).Nodup) {name : Text} {p q : Option Text}
    (hp : (name, p) ∈ types) (hq : (name, q) ∈ types)
    : p = q :=
  congrArg Prod.snd (List.inj_on_of_nodup_map hnodup hp hq rfl)

theorem forestOn_types (hnodup : (names types).Nodup)
    (hacyclic : ∀ name, ¬TransGen (Extends types) name name)
    : Forest.ForestOn (childrenOf types) fun _ => True where
  closed := fun _ _ _ _ => trivial
  nodup := fun _ _ => hnodup.sublist (List.filter_sublist.map _)
  parent := by
    intro u v w _ _ hu hv
    exact Option.some.inj (eq_of_mem_types hnodup (mem_childrenOf.mp hu) (mem_childrenOf.mp hv))
  acyclic := by
    intro name _ hcycle
    rw [step_eq_swap_extends, transGen_swap] at hcycle
    exact hacyclic name hcycle

theorem apart_topLevel (hnodup : (names types).Nodup)
    : Forest.Apart (childrenOf types) (topLevel types) where
  nodup := hnodup.sublist (List.filter_sublist.map _)
  notBelow := by
    intro u _ w hw hbelow
    obtain ⟨parent, _, hstep⟩ := TransGen.tail'_iff.mp hbelow
    have heq := eq_of_mem_types hnodup (mem_topLevel.mp hw) (mem_childrenOf.mp hstep)
    simp at heq

theorem exists_root (hacyclic : ∀ name, ¬TransGen (Extends types) name name)
    (hindexed : ParentsIndexed types) {name : Text} (hname : name ∈ names types)
    : ∃ top ∈ topLevel types, ReflTransGen (Forest.Step (childrenOf types)) top name := by
  let parents (name : Text) : List Text :=
    types.filterMap fun (n, p) => if n = name then p else none
  have hparents : Forest.Step parents = Extends types := by
    funext name parent
    simp [Forest.Step, parents, Extends]
  have hfinite : {w | ReflTransGen (Forest.Step parents) name w}.Finite := by
    apply Forest.finite_reach (types.filterMap Prod.snd)
    intro u parent hparent
    obtain ⟨⟨n, p⟩, hmem, hp⟩ := List.mem_filterMap.mp hparent
    refine List.mem_filterMap.mpr ⟨_, hmem, ?_⟩
    by_cases hn : n = u <;> simp_all
  have hacc := (Forest.acc_iff_acyclic hfinite).mpr fun w _ => hparents ▸ hacyclic w
  rw [hparents] at hacc
  clear hfinite
  induction hacc with
  | intro name _ ih =>
    obtain ⟨⟨_, p⟩, hmem, rfl⟩ := List.mem_map.mp hname
    cases p with
    | none => exact ⟨_, mem_topLevel.mpr hmem, .refl⟩
    | some parent =>
      obtain ⟨top, htop, hreach⟩ := ih parent hmem (hindexed _ parent hmem)
      exact ⟨top, htop, hreach.tail (mem_childrenOf.mpr hmem)⟩

theorem name_of_reaches {top name : Text} (htop : top ∈ topLevel types)
    (hreach : ReflTransGen (Forest.Step (childrenOf types)) top name)
    : name ∈ names types := by
  rcases hreach.cases_tail with rfl | ⟨parent, _, hstep⟩
  . exact List.mem_map_of_mem (mem_topLevel.mp htop)
  . exact List.mem_map_of_mem (mem_childrenOf.mp hstep)

theorem name_of_prints {lines : List (Nat × Text)} (h : Prints types lines)
    : lines.map Prod.snd ⊆ names types := by
  obtain ⟨bound, hlines⟩ := h
  intro name hname
  obtain ⟨top, htop, hreach⟩ :=
    (listing_of_hierarchy (hlines _ (Nat.lt_succ_self _))).mem_iff.mp hname
  exact name_of_reaches htop hreach

theorem exists_listsOnce (hnodup : (names types).Nodup)
    (hacyclic : ∀ name, ¬TransGen (Extends types) name name) (hindexed : ParentsIndexed types)
    : ∃ lines, Prints types lines ∧ ListsOnce types lines := by
  have hends : HierarchyEnds types := by
    rw [hierarchyEnds_iff_terminates]
    intro top _
    rw [Forest.terminates_iff_acc next_typeSteps, Forest.acc_iff_acyclic (finite_below top),
      step_eq_swap_extends]
    intro name _
    rw [transGen_swap]
    exact hacyclic name
  obtain ⟨lines, hprints⟩ := hends
  have hsubset := name_of_prints hprints
  obtain ⟨bound, hlines⟩ := id hprints
  have hlisting := listing_of_hierarchy (hlines _ (Nat.lt_succ_self _))
  have hforest := forestOn_types hnodup hacyclic
  have hmem : ∀ name ∈ names types, name ∈ lines.map Prod.snd := by
    intro name hname
    exact hlisting.mem_iff.mpr (exists_root hacyclic hindexed hname)
  refine ⟨lines, hprints, ?_, ?_, ?_⟩
  . have hlinesNodup := hforest.nodup_listing hlisting (fun _ _ => trivial) (apart_topLevel hnodup)
    exact (List.perm_ext_iff_of_nodup hlinesNodup hnodup).mpr fun name => ⟨@hsubset name, hmem name⟩
  . intro name parent hparent hindexedParent
    obtain ⟨line, hline, rfl⟩ := List.mem_map.mp (hmem parent hindexedParent)
    obtain ⟨before, between, after, heq, hdeeper⟩ :=
      hlisting.under hline (mem_childrenOf.mpr hparent)
    exact ⟨line.1, before, between, after, heq, hdeeper⟩
  . intro name parent hmem hroot
    cases parent with
    | none => exact hlisting.mem_of_mem_roots (mem_topLevel.mpr hmem)
    | some parent => exact absurd (hindexed name parent hmem) (hroot parent rfl)

theorem parentsIndexed_of_prints (hnodup : (names types).Nodup) {lines : List (Nat × Text)}
    (h : Prints types lines) (hall : names types ⊆ lines.map Prod.snd)
    : ParentsIndexed types := by
  obtain ⟨bound, hlines⟩ := h
  have hlisting := listing_of_hierarchy (hlines _ (Nat.lt_succ_self _))
  intro name parent hparent
  obtain ⟨top, htop, hreach⟩ := hlisting.mem_iff.mp (hall (List.mem_map_of_mem hparent))
  rcases hreach.cases_tail with rfl | ⟨other, hreach, hstep⟩
  . have heq := eq_of_mem_types hnodup (mem_topLevel.mp htop) hparent
    simp at heq
  . have heq := eq_of_mem_types hnodup (mem_childrenOf.mp hstep) hparent
    rw [← Option.some.inj heq]
    exact name_of_reaches htop hreach

theorem nodup_of_prints {lines : List (Nat × Text)} (h : Prints types lines)
    (hnodup : (lines.map Prod.snd).Nodup) (hall : names types ⊆ lines.map Prod.snd)
    (hfunctional : ∀ n p q, (n, p) ∈ types → (n, q) ∈ types → p = q)
    : (names types).Nodup := by
  obtain ⟨bound, hlines⟩ := h
  have hlisting := listing_of_hierarchy (hlines _ (Nat.lt_succ_self _))
  have hsiblings : ∀ name p, (name, p) ∈ types →
      ((types.filter fun type => type.2 = p).map Prod.fst).Sublist (lines.map Prod.snd) := by
    intro name p hmem
    cases p with
    | none => exact topLevel_eq types ▸ hlisting.sublist_roots
    | some parent =>
      obtain ⟨top, htop, hreach⟩ := hlisting.mem_iff.mp (hall (List.mem_map_of_mem hmem))
      rcases hreach.cases_tail with rfl | ⟨other, hother, hstep⟩
      . have heq := hfunctional _ _ _ (mem_topLevel.mp htop) hmem
        simp at heq
      . have heq := Option.some.inj (hfunctional _ _ _ (mem_childrenOf.mp hstep) hmem)
        subst heq
        obtain ⟨line, hline, hname⟩ := List.mem_map.mp (hlisting.mem_iff.mpr ⟨top, htop, hother⟩)
        have hnext := hlisting.sublist_next hline
        rwa [hname] at hnext
  rw [names, List.nodup_map_iff_inj_on]
  . rintro ⟨n, p⟩ hp ⟨n', q⟩ hq rfl
    rw [hfunctional n p q hp hq]
  . rw [List.nodup_iff_sublist]
    rintro ⟨name, p⟩ htwice
    have hmem : (name, p) ∈ types := htwice.subset List.mem_cons_self
    have hfilter := (htwice.filter fun type => type.2 = p).map Prod.fst
    simp only [List.filter_cons, decide_true, if_true, List.filter_nil, List.map_cons, List.map_nil]
      at hfilter
    exact List.nodup_iff_sublist.mp hnodup name (hfilter.trans (hsiblings name p hmem))

/-! ## Lists with the same classes -/

variable {types' : List (Text × Option Text)}

theorem names_perm (h : types ~ types') : names types ~ names types' := h.map _

theorem extends_congr (h : types ~ types') : Extends types = Extends types' := by
  funext name parent
  exact propext h.mem_iff

theorem parentsIndexed_congr (h : types ~ types')
    : ParentsIndexed types ↔ ParentsIndexed types' := by
  simp only [ParentsIndexed, extends_congr h, (names_perm h).mem_iff]

theorem ListsOnce.of_perm (h : types ~ types') {lines : List (Nat × Text)}
    (hlists : ListsOnce types lines)
    : ListsOnce types' lines where
  once := hlists.once.trans (names_perm h)
  under := by
    intro name parent hmem hparent
    exact hlists.under name parent (h.mem_iff.mpr hmem) ((names_perm h).mem_iff.mpr hparent)
  root := by
    intro name parent hmem hroot
    exact hlists.root name parent (h.mem_iff.mpr hmem) fun p hp hindexed =>
      hroot p hp ((names_perm h).mem_iff.mp hindexed)

end Contents
end TypeHierarchy

/-! ## The classes of a project -/

def Selection.classesBelow : Selection where
  kinds kind := kind.isClass
  top _ := false
  below _ kind := kind.isClass
  kinds_of_top := by simp
  kinds_of_below := id
  top_of_kinds := by
    intro kind hclass _ hkind
    simp [hclass] at hkind
  sourceFile := rfl

namespace ProjectState

open TypeHierarchy

variable (parse : Text → Option Cst → Cst) (prepare : Text → Text → Text) (files : List FileRead)

def classesOf : List (Text × Option Text) :=
  classes (loadFiles parse prepare files).symbols (loadFiles parse prepare files).graph.allNodes

def typesOf (fileMap : List (Text × NodeId)) : List (Text × Option Text) :=
  uvmTypes (loadFiles parse prepare files).graph (loadFiles parse prepare files).symbols fileMap

/--
Both commands list the classes of the project, in whatever order the nodes and the file map are gone
over.
-/
structure ListsClasses : Prop where
  server : ∀ nodes, nodes ~ (loadFiles parse prepare files).graph.allNodes →
    ∃ lines, Prints (classes (loadFiles parse prepare files).symbols nodes) lines
      ∧ ListsOnce (classesOf parse prepare files) lines
  commandLine : ∀ fileMap, fileMap ~ (loadFiles parse prepare files).fileMap.toList →
    ∃ lines, Prints (typesOf parse prepare files fileMap) lines
      ∧ ListsOnce (classesOf parse prepare files) lines

variable {parse prepare files}

def namedType (node : NamedNode) : Text × Option Text :=
  match node.kind with
  | .class name parent => (name, parent)
  | _ => ([], none)

theorem classType_of_named {symbols : SymbolTable} {node : GraphNode} {content : NamedNode}
    (h : node.named symbols = some content)
    : classType symbols node.kind = if Selection.classesBelow.kinds content.kind
        then some (namedType content) else none := by
  have hsays := GraphNode.says_of_named h
  generalize node.kind = kind at hsays ⊢
  unfold namedType
  generalize content.kind = named at hsays ⊢
  cases hsays <;> simp [classType, Selection.classesBelow, NodeKind.isClass, *]

theorem perm_classesOf
    : classesOf parse prepare files
        ~ (nodesOfKinds parse prepare files .classesBelow).map fun z => namedType z.2 := by
  apply (loaded_foldl parse prepare files).perm_filterMap_allNodes (s := .classesBelow) namedType
  intro node content h
  exact classType_of_named h

theorem perm_typesOf {fileMap : List (Text × NodeId)}
    (hfileMap : fileMap ~ (loadFiles parse prepare files).fileMap.toList)
    : typesOf parse prepare files fileMap
        ~ (seenNodes parse prepare files .classesBelow).map fun z => namedType z.2 := by
  rw [← List.flatMap_singleton' (typesOf parse prepare files fileMap), typesOf, uvmTypes]
  apply (loaded_foldl parse prepare files).perm_flatMap_visit_named (s := .classesBelow)
    (fun type => [type])
    (fun _ content => namedType content) _ _ hfileMap
  . intro _ _ _ _ _
    rfl
  . intro file node ce child content h
    have htype : classType (loadFiles parse prepare files).symbols child.kind
        = if Selection.classesBelow.below ce.edgeType content.kind then some (namedType content)
          else none :=
      classType_of_named h
    rw [List.flatMap_singleton', htype]
    split <;> rfl

theorem typesOf_subset {fileMap : List (Text × NodeId)}
    (hfileMap : fileMap ~ (loadFiles parse prepare files).fileMap.toList)
    : typesOf parse prepare files fileMap ⊆ classesOf parse prepare files := by
  intro type htype
  exact perm_classesOf.symm.subset
    (List.map_subset _ seenNodes_subset ((perm_typesOf hfileMap).subset htype))

theorem perm_of_listsOnce {fileMap : List (Text × NodeId)}
    (hfileMap : fileMap ~ (loadFiles parse prepare files).fileMap.toList)
    (hnodup : (names (classesOf parse prepare files)).Nodup) {lines : List (Nat × Text)}
    (hprints : Prints (typesOf parse prepare files fileMap) lines)
    (hlists : ListsOnce (classesOf parse prepare files) lines)
    : seenNodes parse prepare files .classesBelow
        ~ nodesOfKinds parse prepare files .classesBelow := by
  let name (z : Text × NamedNode) : Text := (namedType z.2).1
  have hclasses : names (classesOf parse prepare files)
      ~ (nodesOfKinds parse prepare files .classesBelow).map name := by
    have hperm : names (classesOf parse prepare files) ~ _ := names_perm perm_classesOf
    rwa [names, names, List.map_map] at hperm
  have htypes : names (typesOf parse prepare files fileMap)
      ~ (seenNodes parse prepare files .classesBelow).map name := by
    have hperm := names_perm (perm_typesOf hfileMap)
    rwa [names, names, List.map_map] at hperm
  have hsubset := typesOf_subset hfileMap
  have hfunctional : ∀ n p q, (n, p) ∈ typesOf parse prepare files fileMap →
      (n, q) ∈ typesOf parse prepare files fileMap →
      p = q :=
    fun n p q hp hq => eq_of_mem_types hnodup (hsubset hp) (hsubset hq)
  have hnames : (names (typesOf parse prepare files fileMap)).Nodup :=
    nodup_of_prints hprints (hlists.once.nodup_iff.mpr hnodup)
      (fun n hn => hlists.once.symm.subset (List.map_subset _ hsubset hn)) hfunctional
  have hall : names (classesOf parse prepare files)
      ~ names (typesOf parse prepare files fileMap) := by
    rw [List.perm_ext_iff_of_nodup hnodup hnames]
    intro n
    constructor
    . exact fun hn => name_of_prints hprints (hlists.once.symm.subset hn)
    . exact fun hn => List.map_subset _ hsubset hn
  refine Chunks.perm_of_perm_map seenNodes_subset ?_ (htypes.symm.trans (hall.symm.trans hclasses))
  exact fun z hz z' hz' heq => List.inj_on_of_nodup_map (hclasses.nodup_iff.mp hnodup) hz hz' heq

variable (parse prepare files)

/--
Where the names differ and no class is its own ancestor, both commands list the classes if and only
if every parent is a class of the project, and every class is right below a module or package of a
file whose path is loaded only once.
-/
theorem listsClasses_iff (hnodup : (names (classesOf parse prepare files)).Nodup)
    (hacyclic : ∀ name, ¬TransGen (Extends (classesOf parse prepare files)) name name)
    : ListsClasses parse prepare files
        ↔ ParentsIndexed (classesOf parse prepare files)
          ∧ ShowsAll parse prepare files .classesBelow := by
  have hexists : ParentsIndexed (classesOf parse prepare files) →
      ∀ types, types ~ classesOf parse prepare files →
      ∃ lines, Prints types lines ∧ ListsOnce (classesOf parse prepare files) lines := by
    intro hindexed types hperm
    obtain ⟨lines, hprints, hlists⟩ := exists_listsOnce ((names_perm hperm).nodup_iff.mpr hnodup)
      (extends_congr hperm ▸ hacyclic) ((parentsIndexed_congr hperm).mpr hindexed)
    exact ⟨lines, hprints, hlists.of_perm hperm⟩
  rw [← perm_iff]
  constructor
  . rintro ⟨hserver, hcommandLine⟩
    constructor
    . obtain ⟨lines, hprints, hlists⟩ := hserver _ (.refl _)
      exact parentsIndexed_of_prints hnodup hprints hlists.once.symm.subset
    . obtain ⟨lines, hprints, hlists⟩ := hcommandLine _ (.refl _)
      exact perm_of_listsOnce (.refl _) hnodup hprints hlists
  . rintro ⟨hindexed, hshows⟩
    constructor
    . intro nodes hnodes
      exact hexists hindexed _ (hnodes.filterMap _)
    . intro fileMap hfileMap
      exact hexists hindexed _
        ((perm_typesOf hfileMap).trans ((hshows.map _).trans perm_classesOf.symm))

theorem classesOf_class
    : classesOf parseClass (fun source _ => source) [classFile] = [("c".toList, none)] := by
  decide +kernel

theorem nodup_names_class
    : (names (classesOf parseClass (fun source _ => source) [classFile])).Nodup := by
  rw [classesOf_class]
  decide

theorem acyclic_class (name : Text)
    : ¬TransGen (Extends (classesOf parseClass (fun source _ => source) [classFile]))
        name name := by
  rw [classesOf_class]
  intro hcycle
  obtain ⟨_, hstep, _⟩ := TransGen.head'_iff.mp hcycle
  simp [Extends] at hstep

theorem listsClasses_iff_class
    : ListsClasses parseClass (fun source _ => source) [classFile]
        ↔ ParentsIndexed [("c".toList, none)]
          ∧ ShowsAll parseClass (fun source _ => source) [classFile] .classesBelow := by
  rw [← classesOf_class]
  exact listsClasses_iff _ _ _ nodup_names_class acyclic_class

-- The command line does not collect the class of a file
theorem not_listsClasses_class
    : (names (classesOf parseClass (fun source _ => source) [classFile])).Nodup
      ∧ (∀ name, ¬TransGen (Extends (classesOf parseClass (fun source _ => source) [classFile]))
          name name)
      ∧ ¬ListsClasses parseClass (fun source _ => source) [classFile] := by
  refine ⟨nodup_names_class, acyclic_class, ?_⟩
  rintro ⟨_, hcommandLine⟩
  obtain ⟨lines, hprints, hlists⟩ := hcommandLine _ (.refl _)
  have htypes : typesOf parseClass (fun source _ => source) [classFile]
      (loadFiles parseClass (fun source _ => source) [classFile]).fileMap.toList = [] := by
        decide +kernel
  have hname : "c".toList ∈ names (classesOf parseClass (fun source _ => source) [classFile]) := by
    rw [classesOf_class]
    decide
  have hprinted := name_of_prints hprints (hlists.once.symm.subset hname)
  rw [htypes] at hprinted
  simp [names] at hprinted

end ProjectState
end HdlGraph
