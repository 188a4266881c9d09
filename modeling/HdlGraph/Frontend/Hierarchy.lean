import HdlGraph.Frontend.Instances
import HdlGraph.Project.Planted

/-!
This module contains what the printed tree of a module shows. A node without a label ends the walk,
so that nothing below it is printed, and a generate block has no label.
-/

namespace HdlGraph

open scoped List
open Relation

def NodeKind.inHierarchy : NodeKind ν → Bool
  | .moduleInstance _ _ | .signalDecl _ _ | .modulePort _ _ | .alwaysBlock
      _ | .assignment | .function _ _ | .class _ _
  | .module _ => true
  | _ => false

def NodeKind.labelled : NodeKind ν → Bool
  | .package _ => true
  | kind => kind.inHierarchy

namespace InMemoryGraph

/-! ## What is to be shown -/

section Shown

variable (g : InMemoryGraph)

def IsModule (m : NodeId) : Bool :=
  (g.getNode m).any fun node =>
    match node.kind with
    | .module _ => true
    | _ => false

def targets (v : NodeId) : List NodeId := (g.getOutgoing v).map Edge.target

def InHierarchy (v : NodeId) : Bool := (g.getNode v).any fun node => node.kind.inHierarchy

def Labelled (v : NodeId) : Bool := (g.getNode v).any fun node => node.kind.labelled

def LeadsTo : NodeId → NodeId → Prop := TransGen (Forest.Step (targets g))

-- The walk of `print_tree` with the depth and the id of each printed node in place of its line
def printedSteps (depth : Nat) (v : NodeId) : List (Walk.Step NodeId (Nat × NodeId)) :=
  ((targets g v).filter (Labelled g)).map fun w => ⟨[(depth, w)], some w⟩

def treeLine (symbols : SymbolTable) (x : Nat × NodeId) : Text :=
  indent x.1 ++ "|-- ".toList
    ++ ((g.getNode x.2).bind fun node => treeLabel symbols node.kind).getD []

/--
The nodes `printed` are those below `m`, each of them once and deeper than what it is below of.
-/
structure Displays (m : NodeId) (printed : List (Nat × NodeId)) : Prop where
  once : ∀ v, LeadsTo g m v → InHierarchy g v → (printed.map Prod.snd).count v = 1
  deeper : ∀ x ∈ printed, ∀ y ∈ printed, LeadsTo g x.2 y.2 → x.1 < y.1

/-- The tree of `m` is printed, with a line for every node below `m`. -/
def ShowsTree (m : NodeId) : Prop :=
  ∀ symbols depth, ∃ printed, Displays g m printed ∧ ∃ bound, ∀ fuel, bound < fuel →
    Walk.run (printedSteps g) fuel depth m = some printed
      ∧ g.printTree symbols fuel depth m = some (printed.map (treeLine g symbols))

/-- No node on the way from `m` to a node of the hierarchy is of a kind that has no label. -/
def NothingHidden (m : NodeId) : Prop :=
  ∀ v, LeadsTo g m v → InHierarchy g v → ∀ u, LeadsTo g m u → LeadsTo g u v → Labelled g u

end Shown

/-! ## The walk over the printed nodes -/

section Walk

variable {g : InMemoryGraph}

theorem isSome_treeLabel (symbols : SymbolTable) (kind : NodeKind InternedString)
    : (treeLabel symbols kind).isSome = kind.labelled := by
  cases kind <;> rfl

theorem labelled_of_inHierarchy {v : NodeId} (h : InHierarchy g v) : Labelled g v := by
  rw [InHierarchy, Option.any_eq_true] at h
  obtain ⟨node, hnode, hkind⟩ := h
  rw [Labelled, Option.any_eq_true]
  refine ⟨node, hnode, ?_⟩
  unfold NodeKind.labelled
  split
  . rfl
  . exact hkind

theorem treeSteps_eq (symbols : SymbolTable) (depth : Nat) (v : NodeId)
    : g.treeSteps (treeLabel symbols) "|-- ".toList depth v
        = (printedSteps g depth v).map (Walk.Step.bind fun x => [treeLine g symbols x]) := by
  rw [treeSteps, printedSteps, targets, List.filter_map, List.map_map, List.map_map,
    ← List.filterMap_eq_map, List.filterMap_filter]
  apply List.filterMap_congr
  intro e _
  rcases Option.eq_none_or_eq_some (g.getNode e.target) with hchild | ⟨child, hchild⟩
  . simp [hchild, Labelled]
  . have hlabel := isSome_treeLabel symbols child.kind
    rcases Option.eq_none_or_eq_some (treeLabel symbols child.kind) with hnone | ⟨label, hsome⟩
    . rw [hnone] at hlabel
      simp [hchild, hnone, Labelled, ← hlabel]
    . rw [hsome] at hlabel
      simp [hchild, hsome, Labelled, ← hlabel, treeLine, Walk.Step.bind]

theorem printTree_eq (symbols : SymbolTable) (fuel depth : Nat) (m : NodeId)
    : g.printTree symbols fuel depth m
        = (Walk.run (printedSteps g) fuel depth m).map fun printed =>
          printed.map (treeLine g symbols) := by
  have hsteps : g.treeSteps (treeLabel symbols) "|-- ".toList
      = fun depth v =>
        (printedSteps g depth v).map (Walk.Step.bind fun x => [treeLine g symbols x]) := by
    funext depth v
    exact treeSteps_eq symbols depth v
  rw [printTree, hsteps, Walk.run_bind]
  simp only [← List.map_eq_flatMap]

theorem Ascending.terminates_printedSteps (h : Ascending g) (depth : Nat) (m : NodeId)
    : Walk.Terminates (printedSteps g) depth m := by
  apply h.terminates
  intro depth v step hstep w hw
  obtain ⟨target, htarget, rfl⟩ := List.mem_map.mp hstep
  obtain ⟨e, he, rfl⟩ := List.mem_map.mp (List.mem_of_mem_filter htarget)
  exact ⟨e, he, Option.some.inj hw⟩

end Walk

/-! ## When the whole hierarchy is shown -/

theorem PlantedWith.module_notMem {g : InMemoryGraph} {nextId : NodeId} {roots : List NodeId}
    {log : List Edge} (h : PlantedWith g nextId roots log) {m : NodeId} (hm : IsModule g m)
    : m ∉ roots := by
  rw [IsModule, Option.any_eq_true] at hm
  obtain ⟨node, hnode, hkind⟩ := hm
  obtain ⟨hmem, rfl⟩ := h.reachable.keyed.getNode_eq_some_iff.mp hnode
  intro hroot
  rw [h.rootNode node hmem hroot] at hkind
  simp at hkind

theorem PlantedWith.showsTree_iff_nothingHidden {g : InMemoryGraph} {nextId : NodeId}
    {roots : List NodeId} {log : List Edge} (h : PlantedWith g nextId roots log) {m : NodeId}
    (hm : m ∉ roots)
    : ShowsTree g m ↔ NothingHidden g m := by
  let shown (v : NodeId) : List NodeId := (targets g v).filter (Labelled g)
  have hsub : ∀ v, shown v ⊆ targets g v := fun v => List.filter_subset_self _
  have hforest : Forest.ForestOn (targets g) (· ∉ roots) := h.forestOn fun v => .refl _
  have hshown : Forest.ForestOn shown (· ∉ roots) := h.forestOn fun v => List.filter_sublist
  have hascending : Ascending g := ⟨log, h.logs, fun e he => (h.ends e he).1⟩
  have hwritten : ∀ {fuel depth printed}, Walk.run (printedSteps g) fuel depth m = some printed →
      Forest.Listing shown depth (shown m) printed := fun hrun => Forest.listing_of_run hrun
  have hmem : ∀ {depth printed}, Forest.Listing shown depth (shown m) printed → ∀ v,
      v ∈ printed.map Prod.snd ↔ TransGen (Forest.Step shown) m v := by
    intro depth printed hlisting v
    rw [hlisting.mem_iff, TransGen.head'_iff]
    rfl
  constructor
  . intro hshows v hv hin u hu huv
    obtain ⟨printed, hdisplays, bound, hrun⟩ := hshows SymbolTable.new 0
    have hlisting := hwritten (hrun _ (Nat.lt_succ_self _)).1
    have hprinted : v ∈ printed.map Prod.snd := by
      rw [← List.count_pos_iff, hdisplays.once v hv hin]
      exact Nat.one_pos
    have hmu := (hforest.between hsub hm hu huv ((hmem hlisting v).mp hprinted)).1
    obtain ⟨_, _, hstep⟩ := TransGen.tail'_iff.mp hmu
    exact List.of_mem_filter hstep
  . intro hnothing symbols depth
    obtain ⟨printed, bound, hrun⟩ := hascending.terminates_printedSteps depth m
    have hlisting := hwritten (hrun _ (Nat.lt_succ_self _))
    have hroots : ∀ v ∈ shown m, v ∉ roots := fun v hv => hshown.closed m v hm hv
    have hapart := hshown.apart_next hm
    refine ⟨printed, ⟨?_, ?_⟩, bound, ?_⟩
    . intro v hv hin
      apply List.count_eq_one_of_mem (hshown.nodup_listing hlisting hroots hapart)
      rw [hmem hlisting]
      exact Forest.transGen_filter hv (labelled_of_inHierarchy hin) (hnothing v hv hin)
    . intro x hx y hy hxy
      have hmx := (hmem hlisting x.2).mp (List.mem_map_of_mem hx)
      have hmy := (hmem hlisting y.2).mp (List.mem_map_of_mem hy)
      have hmx' : TransGen (Forest.Step (targets g)) m x.2 :=
        TransGen.mono (fun v w hw => hsub v hw) _ _ hmx
      have hxy' := (hforest.between hsub hm hmx' hxy hmy).2
      exact hshown.depth_lt hlisting hroots hapart hx hy hxy'
    . intro fuel hfuel
      rw [printTree_eq, hrun fuel hfuel]
      exact ⟨rfl, rfl⟩

end InMemoryGraph

open InMemoryGraph

/--
In the graph of a project, the tree of a module shows all that is below the module if and only if
nothing of it is below a node without a label.
-/
theorem showsTree_iff {H : Type} [DecidableEq H] (parse : Text → Option Cst → Cst)
    (computeFileHash : Text → H) (preprocess : Text → Text → Text) (files : List FileRead)
    (rounds : List (List FileRead)) {g : InMemoryGraph}
    (hg : g ∈ projectGraphs parse computeFileHash preprocess files rounds) {m : NodeId}
    (hm : IsModule g m)
    : ShowsTree g m ↔ NothingHidden g m := by
  obtain ⟨nextId, roots, log, h⟩ := planted_of_mem_projectGraphs hg
  exact h.showsTree_iff_nothingHidden (h.module_notMem hm)

def generatedGraph : InMemoryGraph :=
  (ProjectState.loadOrBuild ProjectState.parseGenerated [ProjectState.generatedFile]).graph

theorem isModule_generated : IsModule generatedGraph 2 := by decide +kernel

theorem showsTree_iff_generated : ShowsTree generatedGraph 2 ↔ NothingHidden generatedGraph 2 :=
  showsTree_iff ProjectState.parseGenerated id (fun source _ => source)
    [ProjectState.generatedFile] []
    List.mem_cons_self isModule_generated

theorem not_showsTree_generated : IsModule generatedGraph 2 ∧ ¬ShowsTree generatedGraph 2 := by
  refine ⟨isModule_generated, ?_⟩
  intro hshows
  obtain ⟨printed, hdisplays, bound, hrun⟩ := hshows SymbolTable.new 1
  have hwalk : Walk.run (printedSteps generatedGraph) 1 1 2 = some [] := by decide +kernel
  have hprinted := (hrun (bound + 1) (Nat.lt_succ_self _)).1
  rw [Walk.run_of_le (by omega) hwalk, Option.some.injEq] at hprinted
  have hblock : 3 ∈ targets generatedGraph 2 := by decide +kernel
  have hinstance : 4 ∈ targets generatedGraph 3 := by decide +kernel
  have honce := hdisplays.once 4 (.tail (.single hblock) hinstance) (by decide +kernel)
  rw [← hprinted] at honce
  simp at honce

end HdlGraph
