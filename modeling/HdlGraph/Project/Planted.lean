import HdlGraph.Library.Forest
import HdlGraph.Parse.Extractor.TopLevel
import HdlGraph.Project.Walks

/-!
This module contains what the graphs of projects are: trees that hang on the nodes of the files.
Only the node of a file may have two edges to the same node.
-/

namespace HdlGraph

open scoped List
open Relation

namespace InMemoryGraph

/--
The edges `log` make trees, `roots` are the nodes of the files and `nextId` is the next free id.
-/
structure PlantedWith (g : InMemoryGraph) (nextId : NodeId) (roots : List NodeId) (log : List Edge)
    : Prop where
  reachable : g.Reachable
  logs : g.Logs log
  ends : ∀ e ∈ log, e.source < e.target ∧ e.target < nextId
  rootLt : ∀ r ∈ roots, r < nextId
  rootNotEntered : ∀ e ∈ log, e.target ∉ roots
  parent : ∀ e ∈ log, ∀ e' ∈ log, e.target = e'.target → e.source = e'.source
  once : ((log.filter (·.source ∉ roots)).map Edge.target).Nodup
  rootNode : ∀ node ∈ g.allNodes, node.id ∈ roots → node.kind = .sourceFile

def Planted (g : InMemoryGraph) (nextId : NodeId) : Prop :=
  ∃ roots log, PlantedWith g nextId roots log

theorem Planted.new (nextId : NodeId) : Planted new nextId := by
  refine ⟨[], [], Reachable.new, Logs.new, ?_, ?_, ?_, ?_, ?_, ?_⟩ <;> simp

namespace PlantedWith

variable {g : InMemoryGraph} {nextId : NodeId} {roots : List NodeId} {log : List Edge}

theorem rootNode_extract {ex : GraphExtractor} {tree : Cst} {fileId : Nat} {node : GraphNode}
    (hnode : node ∈ (ex.extract tree fileId).1.1) (hid : node.id = ex.nextId)
    : node.kind = .sourceFile := by
  have hextract := ex.extract_extracts tree fileId
  have hmem := List.mem_map_of_mem (f := (·.named (ex.extract tree fileId).2.symbols)) hnode
  rw [hextract.nodes] at hmem
  obtain ⟨content, hcontent, hnamed⟩ := List.mem_map.mp hmem
  have hsame : content = (GraphExtractor.fileOutline tree).rootNode ex.nextId := by
    refine List.inj_on_of_nodup_map (FileOutline.ids_nodup ex.nextId _) hcontent
      List.mem_cons_self ?_
    exact (GraphNode.id_of_named hnamed.symm).symm.trans hid
  apply NodeKind.eq_sourceFile_of_resolve
  rw [GraphNode.resolve_of_named hnamed.symm, hsame]
  rfl

section Extract

variable {ex : GraphExtractor} (h : PlantedWith g ex.nextId roots log) (tree : Cst) (fileId : Nat)
  (oldNodeIds : List NodeId) (oldEdges : List Edge)

include h

theorem nodup_targets_kept
    : ((((ex.extractChangeset tree fileId oldNodeIds oldEdges).1.keptEdges log
          ++ (GraphExtractor.fileOutline tree).edgesAt ex.nextId).filter
          (·.source ∉ ex.nextId :: roots)).map Edge.target).Nodup := by
  have hrootLt := h.rootLt
  have hbelow : ((GraphExtractor.fileOutline tree).edgesAt ex.nextId).filter
        (fun e => e.source ∉ ex.nextId :: roots)
      = ((GraphExtractor.fileOutline tree).edgesAt ex.nextId).filter (·.source ≠ ex.nextId) := by
    apply List.filter_congr
    intro e he
    have := FileOutline.mem_edgesAt he
    grind
  have hkept : ((ex.extractChangeset tree fileId oldNodeIds oldEdges).1.keptEdges log).filter
      (fun e => e.source ∉ ex.nextId :: roots) <+ log.filter (·.source ∉ roots) := by
    refine (List.filter_sublist.filter _).trans (List.monotone_filter_right _ ?_)
    intro e he
    simp_all
  rw [List.filter_append, hbelow, List.map_append, List.nodup_append']
  refine ⟨h.once.sublist (hkept.map _), FileOutline.nodup_targets _ _, ?_⟩
  intro id hid hid'
  obtain ⟨e, he, rfl⟩ := List.mem_map.mp hid
  obtain ⟨e', he', htarget⟩ := List.mem_map.mp hid'
  have := h.ends e (List.mem_of_mem_filter (List.mem_of_mem_filter he))
  have := FileOutline.mem_edgesAt (List.mem_of_mem_filter he')
  grind

theorem rootNode_applyTo {node : GraphNode}
    (hnode : node ∈ ((ex.extractChangeset tree fileId oldNodeIds oldEdges).1.applyTo g).allNodes)
    (hid : node.id ∈ ex.nextId :: roots)
    : node.kind = .sourceFile := by
  have hnodup := ex.extract_ids_nodup tree fileId
  have hpos := ex.id_ne_zero_of_mem_extract tree fileId
  rw [← ex.extractChangeset_addedNodes tree fileId oldNodeIds oldEdges] at hnodup hpos
  have happly := ChangeSet.perm_applyTo _ h.reachable.keyed hnodup hpos
  rw [GraphExtractor.extractChangeset_addedNodes] at happly
  rw [List.mem_cons] at hid
  rcases List.mem_append.mp (happly.subset hnode) with hkept | hnew
  . have ⟨hold, hkeep⟩ := List.mem_filter.mp hkept
    rcases hid with hid | hid
    . -- the new node of the file has taken the id
      obtain ⟨first, hfirst, hfirstId⟩ := Option.map_eq_some_iff.mp (ex.head?_extract tree fileId)
      have hmem := List.mem_map_of_mem (f := GraphNode.id) (List.mem_of_mem_head? hfirst)
      rw [hfirstId, ← hid] at hmem
      rw [GraphExtractor.extractChangeset_addedNodes] at hkeep
      exact absurd hmem (of_decide_eq_true hkeep).2
    . exact h.rootNode node hold hid
  . have hle := (ex.le_id_of_mem_extract tree fileId (List.mem_map_of_mem hnew)).1
    rcases hid with hid | hid
    . exact rootNode_extract hnew hid
    . exact absurd (h.rootLt _ hid) (Nat.not_lt.mpr hle)

theorem applyTo
    : PlantedWith ((ex.extractChangeset tree fileId oldNodeIds oldEdges).1.applyTo g)
        (ex.extract tree fileId).2.nextId
        (ex.nextId :: roots)
        ((ex.extractChangeset tree fileId oldNodeIds oldEdges).1.keptEdges log
          ++ (GraphExtractor.fileOutline tree).edgesAt ex.nextId) := by
  have hextract := ex.extract_extracts tree fileId
  have hadded : (ex.extractChangeset tree fileId oldNodeIds oldEdges).1.addedEdges
      = (GraphExtractor.fileOutline tree).edgesAt ex.nextId := by
    rw [GraphExtractor.extractChangeset_addedEdges, hextract.edges]
  have hkept : ∀ {e}, e ∈ (ex.extractChangeset tree fileId oldNodeIds oldEdges).1.keptEdges log →
      e ∈ log :=
    fun he => List.mem_of_mem_filter he
  have hlt :=
    fun e (he : e ∈ (ex.extractChangeset tree fileId oldNodeIds oldEdges).1.keptEdges log) =>
      h.ends e (hkept he)
  have hge := fun e (he : e ∈ (GraphExtractor.fileOutline tree).edgesAt ex.nextId) =>
    FileOutline.mem_edgesAt he
  have hrootLt := h.rootLt
  constructor
  case reachable => exact ChangeSet.reachable_applyTo _ h.reachable
  case logs => exact hadded ▸ ChangeSet.logs_applyTo _ h.logs
  case ends =>
    rw [hextract.nextId, List.forall_mem_append]
    grind
  case rootLt =>
    rw [hextract.nextId, List.forall_mem_cons]
    have := (GraphExtractor.fileOutline tree).size_pos
    grind
  case rootNotEntered =>
    rw [List.forall_mem_append]
    have := h.rootNotEntered
    grind
  case parent =>
    intro e he e' he' htarget
    rw [List.mem_append] at he he'
    rcases he with he | he <;> rcases he' with he' | he'
    . exact h.parent e (hkept he) e' (hkept he') htarget
    . grind
    . grind
    . exact FileOutline.source_eq_of_target_eq he he' htarget
  case once => exact h.nodup_targets_kept tree fileId oldNodeIds oldEdges
  case rootNode => exact fun _ => h.rootNode_applyTo tree fileId oldNodeIds oldEdges

end Extract

/-! ## Trees below a node -/

section Below

variable {next : NodeId → List NodeId} (h : PlantedWith g nextId roots log)
  (hnext : ∀ v, next v <+ (g.getOutgoing v).map Edge.target)

include h hnext

theorem exists_edge {v w : NodeId} (hw : w ∈ next v) : ∃ e ∈ log, e.source = v ∧ e.target = w := by
  obtain ⟨e, he, htarget⟩ := List.mem_map.mp ((hnext v).subset hw)
  obtain ⟨hmem, hsource⟩ := h.logs.mem_getOutgoing.mp he
  exact ⟨e, hmem, hsource, htarget⟩

theorem lt_of_transGen {v w : NodeId} (hvw : TransGen (Forest.Step next) v w) : v < w := by
  have hstep : ∀ {v w}, Forest.Step next v w → v < w := by
    intro v w hw
    obtain ⟨e, he, rfl, rfl⟩ := h.exists_edge hnext hw
    exact (h.ends e he).1
  induction hvw with
  | single hw => exact hstep hw
  | tail _ hw ih => exact Nat.lt_trans ih (hstep hw)

theorem forestOn : Forest.ForestOn next fun v => v ∉ roots where
  closed := by
    intro v w _ hw
    obtain ⟨e, he, _, rfl⟩ := h.exists_edge hnext hw
    exact h.rootNotEntered e he
  nodup := by
    intro v hv
    have houtgoing : (g.getOutgoing v).map Edge.target
        <+ (log.filter (·.source ∉ roots)).map Edge.target := by
      rw [h.logs.getOutgoing_eq]
      apply List.Sublist.map
      apply List.monotone_filter_right
      intro e he
      simp_all
    exact h.once.sublist ((hnext v).trans houtgoing)
  parent := by
    intro u v w _ _ hu hv
    obtain ⟨e, he, rfl, htarget⟩ := h.exists_edge hnext hu
    obtain ⟨e', he', rfl, htarget'⟩ := h.exists_edge hnext hv
    exact h.parent e he e' he' (htarget.trans htarget'.symm)
  acyclic := fun v _ hcycle => Nat.lt_irrefl v (h.lt_of_transGen hnext hcycle)

end Below

end PlantedWith
end InMemoryGraph

open InMemoryGraph

/-! ## The graphs of projects -/

theorem ProjectState.loadFiles_planted (parse : Text → Option Cst → Cst)
    (prepare : Text → Text → Text) (files : List FileRead)
    : ∃ nextId, Planted (loadFiles parse prepare files).graph nextId := by
  have hfold : ∀ state : InMemoryGraph × GraphExtractor × Dict Text NodeId,
      Planted state.1 state.2.1.nextId →
      ∃ nextId, Planted (files.foldl (loadFile parse prepare) state).1 nextId := by
    intro state h
    induction files generalizing state with
    | nil => exact ⟨_, h⟩
    | cons file files ih =>
      apply ih
      unfold loadFile
      cases file.content with
      | none => exact h
      | some content =>
        obtain ⟨roots, log, h⟩ := h
        dsimp only
        rw [← GraphExtractor.applyTo_extractChangeset_nil]
        exact ⟨_, _, h.applyTo _ _ _ _⟩
  exact hfold _ (.new _)

namespace IndexedProject

variable {H : Type} [DecidableEq H] (parse : Text → Option Cst → Cst) (computeFileHash : Text → H)

omit [DecidableEq H] in
theorem indexProject_planted (files : List FileRead)
    : Planted (indexProject parse computeFileHash files).graph
        (indexProject parse computeFileHash files).extractor.nextId := by
  have hfold : ∀ state : IndexedProject H, Planted state.graph state.extractor.nextId →
      Planted (files.foldl (indexFile parse computeFileHash) state).graph
        (files.foldl (indexFile parse computeFileHash) state).extractor.nextId := by
    intro state h
    induction files generalizing state with
    | nil => exact h
    | cons file files ih =>
      apply ih
      unfold indexFile
      split
      . exact h
      . obtain ⟨roots, log, h⟩ := h
        dsimp only
        rw [← GraphExtractor.applyTo_extractChangeset_nil]
        exact ⟨_, _, h.applyTo _ _ _ _⟩
  exact hfold _ (.new _)

theorem updateFile_planted {state : IndexedProject H}
    (h : Planted state.graph state.extractor.nextId) (file : FileRead)
    : Planted (updateFile parse computeFileHash state file).graph
        (updateFile parse computeFileHash state file).extractor.nextId := by
  unfold updateFile
  split
  . exact h
  . dsimp only
    split
    . exact h
    . obtain ⟨roots, log, h⟩ := h
      exact ⟨_, _, h.applyTo _ _ _ _⟩

theorem indexAndUpdate_planted (files : List FileRead) (rounds : List (List FileRead))
    : Planted (indexAndUpdate parse computeFileHash files rounds).graph
        (indexAndUpdate parse computeFileHash files rounds).extractor.nextId := by
  have hround : ∀ (state : IndexedProject H) (round : List FileRead),
      Planted state.graph state.extractor.nextId →
      Planted (cmdIndexIncremental parse computeFileHash state round).graph
        (cmdIndexIncremental parse computeFileHash state round).extractor.nextId := by
    intro state round h
    unfold cmdIndexIncremental
    induction round generalizing state with
    | nil => exact h
    | cons file round ih => exact ih _ (updateFile_planted parse computeFileHash h file)
  have hfold : ∀ state : IndexedProject H, Planted state.graph state.extractor.nextId →
      Planted (rounds.foldl (cmdIndexIncremental parse computeFileHash) state).graph
        (rounds.foldl (cmdIndexIncremental parse computeFileHash) state).extractor.nextId := by
    intro state h
    induction rounds generalizing state with
    | nil => exact h
    | cons round rounds ih => exact ih _ (hround state round h)
  exact hfold _ (indexProject_planted parse computeFileHash files)

end IndexedProject

-- The graphs that extraction builds for the commands, for the server and for the index with its
-- updates
def projectGraphs {H : Type} [DecidableEq H] (parse : Text → Option Cst → Cst)
    (computeFileHash : Text → H) (preprocess : Text → Text → Text) (files : List FileRead)
    (rounds : List (List FileRead)) : List InMemoryGraph :=
  [(ProjectState.loadOrBuild parse files).graph,
    (ProjectState.loadProject parse preprocess files).graph,
    (IndexedProject.indexAndUpdate parse computeFileHash files rounds).graph]

theorem planted_of_mem_projectGraphs {H : Type} [DecidableEq H] {parse : Text → Option Cst → Cst}
    {computeFileHash : Text → H} {preprocess : Text → Text → Text} {files : List FileRead}
    {rounds : List (List FileRead)} {g : InMemoryGraph}
    (hg : g ∈ projectGraphs parse computeFileHash preprocess files rounds)
    : ∃ nextId, Planted g nextId := by
  simp only [projectGraphs, List.mem_cons, List.not_mem_nil, or_false] at hg
  rcases hg with rfl | rfl | rfl
  . exact ProjectState.loadFiles_planted parse _ files
  . exact ProjectState.loadFiles_planted parse preprocess files
  . exact ⟨_, IndexedProject.indexAndUpdate_planted parse computeFileHash files rounds⟩

end HdlGraph
