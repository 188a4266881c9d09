import HdlGraph.Library.Blocks
import HdlGraph.Project.Rebuild

/-!
This module contains what the history of an extractor leaves in its results: the ids are counted
from another number, and nothing else. So the order in which the files of a project are indexed
changes the graph by a renumbering that moves the subgraph of each file as a block.
-/

namespace HdlGraph

open scoped List
open Blocks

/-! ## One file -/

namespace GraphExtractor

/--
Two extractors return the same nodes and edges for the tree: after adding to each side the counter
of the other one, and with the names read in the symbol tables that the calls leave.
-/
structure ExtractAlike (ex ex' : GraphExtractor) (tree : Cst) (fileId fileId' : Nat) : Prop where
  resolved : ∀ node ∈ (ex.extract tree fileId).1.1,
    (node.named (ex.extract tree fileId).2.symbols).isSome
  nodes : (ex.extract tree fileId).1.1.map
      (fun node => (node.named (ex.extract tree fileId).2.symbols).map (NamedNode.shift ex'.nextId))
    = (ex'.extract tree fileId').1.1.map
      fun node => (node.named (ex'.extract tree fileId').2.symbols).map (NamedNode.shift ex.nextId)
  edges : (ex.extract tree fileId).1.2.map (Edge.shift ex'.nextId)
    = (ex'.extract tree fileId').1.2.map (Edge.shift ex.nextId)

/--
The call takes a block of ids at the counter: for all nodes that it returns and for the ends of all
edges.
-/
structure TakesBlock (ex : GraphExtractor) (tree : Cst) (fileId : Nat) : Prop where
  counter : ex.nextId + (ex.extract tree fileId).1.1.length ≤ (ex.extract tree fileId).2.nextId
  nodes : ∀ node ∈ (ex.extract tree fileId).1.1, ex.nextId ≤ node.id
    ∧ node.id < (ex.extract tree fileId).2.nextId
  edges : ∀ e ∈ (ex.extract tree fileId).1.2, ex.nextId ≤ e.source
    ∧ e.source < (ex.extract tree fileId).2.nextId
    ∧ ex.nextId ≤ e.target ∧ e.target < (ex.extract tree fileId).2.nextId

theorem extractAlike (ex ex' : GraphExtractor) (tree : Cst) (fileId fileId' : Nat)
    : ExtractAlike ex ex' tree fileId fileId' := by
  have hextract := ex.extract_extracts tree fileId
  have hextract' := ex'.extract_extracts tree fileId'
  have hcomm : ex.nextId + ex'.nextId = ex'.nextId + ex.nextId := Nat.add_comm _ _
  constructor
  . intro node hnode
    have hmem := List.mem_map_of_mem (f := (·.named (ex.extract tree fileId).2.symbols)) hnode
    rw [hextract.nodes] at hmem
    obtain ⟨content, _, hcontent⟩ := List.mem_map.mp hmem
    rw [← hcontent]
    rfl
  . have hleft := congrArg (List.map (Option.map (NamedNode.shift ex'.nextId))) hextract.nodes
    have hright := congrArg (List.map (Option.map (NamedNode.shift ex.nextId))) hextract'.nodes
    rw [List.map_map, List.map_map] at hleft hright
    refine hleft.trans (Eq.trans ?_ hright.symm)
    have hshift := FileOutline.nodesAt_shift ex'.nextId ex.nextId (fileOutline tree)
    rw [hcomm, FileOutline.nodesAt_shift] at hshift
    have := congrArg (List.map some) hshift
    rw [List.map_map, List.map_map] at this
    exact this.symm
  . rw [hextract.edges, hextract'.edges, ← FileOutline.edgesAt_shift,
      ← FileOutline.edgesAt_shift, hcomm]

theorem takesBlock (ex : GraphExtractor) (tree : Cst) (fileId : Nat)
    : TakesBlock ex tree fileId := by
  have hextract := ex.extract_extracts tree fileId
  constructor
  . have hlength := (FileOutline.ids_nodesAt ex.nextId (fileOutline tree)).length_le
    rw [← hextract.map_id, List.length_map, List.length_range'] at hlength
    rw [hextract.nextId]
    exact Nat.add_le_add_left hlength _
  . intro node hnode
    exact ex.le_id_of_mem_extract tree fileId (List.mem_map_of_mem hnode)
  . intro e he
    rw [hextract.edges] at he
    have := FileOutline.mem_edgesAt he
    rw [hextract.nextId]
    grind

end GraphExtractor

/-! ## The subgraphs of a project -/

namespace ProjectState

abbrev Subgraph : Type := List (Option NamedNode) × List Edge

def Subgraph.relabel (σ : NodeId → NodeId) (sub : Subgraph) : Subgraph :=
  (sub.1.map (Option.map (·.relabel σ)), sub.2.map (·.relabel σ))

section

variable (parse : Text → Option Cst → Cst) (prepare : Text → Text → Text)

def subgraphsFrom (ex : GraphExtractor) : List FileRead → List (FileRead × Subgraph)
  | [] => []
  | file :: rest =>
    match file.content with
    | none => (file, [], []) :: subgraphsFrom ex rest
    | some content =>
      let ((nodes, edges), ex) := ex.extract (parse (prepare content file.rel) none) 0
      (file, nodes.map (·.named ex.symbols), edges) :: subgraphsFrom ex rest

def subgraphs (files : List FileRead) : List (FileRead × Subgraph) :=
  subgraphsFrom parse prepare .new files

end

def Uses (state : ProjectState) (id : NodeId) : Prop :=
  id ∈ state.graph.allNodes.map GraphNode.id ∨ ∃ e ∈ state.graph.allEdges, e.source = id
    ∨ e.target = id

/-- The graph is made of the subgraphs of the files, and every name can be read. -/
structure ConsistsOf (state : ProjectState) (subs : List (FileRead × Subgraph)) : Prop where
  resolved : ∀ node ∈ state.graph.allNodes, (node.named state.symbols).isSome
  nodes : state.graph.allNodes.map (·.named state.symbols) ~ subs.flatMap fun e => e.2.1
  edges : state.graph.allEdges ~ subs.flatMap fun e => e.2.2

/--
The two projects are isomorphic under a renumbering of the ids of the first one, which takes the
subgraph of each file to a subgraph of this file. If the path of a file is listed with one content
only, then also the entry of the path is renumbered.
-/
structure Isomorphic (σ : NodeId → NodeId) (files : List FileRead)
    (subs subs' : List (FileRead × Subgraph)) (state state' : ProjectState) : Prop where
  injective : Set.InjOn σ {id | state.Uses id}
  nodes : state.graph.allNodes.map (fun node => (node.named state.symbols).map (·.relabel σ))
    ~ state'.graph.allNodes.map (·.named state'.symbols)
  edges : state.graph.allEdges.map (·.relabel σ) ~ state'.graph.allEdges
  subgraphs : subs.map (fun e => (e.1, e.2.relabel σ)) ~ subs'
  fileMap : ∀ rel,
    (∀ file ∈ files, ∀ file' ∈ files, file.rel = rel → file'.rel = rel → file = file') →
    state'.fileMap.get? rel = (state.fileMap.get? rel).map σ

/-! ## Blocks of ids -/

section

variable (parse : Text → Option Cst → Cst) (prepare : Text → Text → Text)

def outlineOf (file : FileRead) : Option FileOutline :=
  file.content.map fun content => GraphExtractor.fileOutline (parse (prepare content file.rel) none)

def blockSize (file : FileRead) : Nat := (outlineOf parse prepare file).elim 0 FileOutline.size

def subgraphAt (x : Nat × FileRead) : Subgraph :=
  (outlineOf parse prepare x.2).elim ([], []) fun outline =>
    ((outline.nodesAt x.1).map some, outline.edgesAt x.1)

def placed (files : List FileRead) : List (Nat × FileRead) :=
  place (blockSize parse prepare) GraphExtractor.new.nextId files

def lastUnder (rel : Text) (xs : List (Nat × FileRead)) : Option (Nat × FileRead) :=
  (xs.filter fun x => x.2.rel = rel ∧ x.2.content.isSome).getLast?

theorem outlineOf_of_none {file : FileRead} (h : file.content = none)
    : outlineOf parse prepare file = none := by
  rw [outlineOf, h]
  rfl

theorem outlineOf_of_some {file : FileRead} {content : Text} (h : file.content = some content)
    : outlineOf parse prepare file
        = some (GraphExtractor.fileOutline (parse (prepare content file.rel) none)) := by
  rw [outlineOf, h]
  rfl

theorem subgraphsFrom_eq (ex : GraphExtractor) (files : List FileRead)
    : subgraphsFrom parse prepare ex files
        = (place (blockSize parse prepare) ex.nextId files).map fun x =>
          (x.2, subgraphAt parse prepare x) := by
  induction files generalizing ex with
  | nil => rfl
  | cons file rest ih =>
    rw [subgraphsFrom, place, List.map_cons]
    cases hcontent : file.content with
    | none =>
      simp only [subgraphAt, blockSize, outlineOf_of_none parse prepare hcontent, Option.elim_none,
        Nat.add_zero, ih]
    | some content =>
      have hextract := ex.extract_extracts (parse (prepare content file.rel) none) 0
      simp only [subgraphAt, blockSize, outlineOf_of_some parse prepare hcontent, Option.elim_some,
        hextract.nodes, hextract.edges, ih, hextract.nextId]

/-- What the loop over the files has built after these files. -/
structure Loaded (files : List FileRead) (st : InMemoryGraph × GraphExtractor × Dict Text NodeId)
    : Prop where
  reachable : st.1.Reachable
  nodes : st.1.allNodes.map (·.named st.2.1.symbols)
    ~ (placed parse prepare files).flatMap fun x => (subgraphAt parse prepare x).1
  below : ∀ node ∈ st.1.allNodes, node.id < st.2.1.nextId
  edges : st.1.allEdges ~ (placed parse prepare files).flatMap fun x =>
    (subgraphAt parse prepare x).2
  nextId : st.2.1.nextId = stop (blockSize parse prepare) GraphExtractor.new.nextId files
  fileMap : ∀ rel, st.2.2.get? rel = (lastUnder rel (placed parse prepare files)).map Prod.fst

end

section

variable {parse : Text → Option Cst → Cst} {prepare : Text → Text → Text} {files : List FileRead}

theorem placed_append_singleton (files : List FileRead) (file : FileRead)
    : placed parse prepare (files ++ [file])
        = placed parse prepare files
          ++ [(stop (blockSize parse prepare) GraphExtractor.new.nextId files, file)] := by
  rw [placed, place_append]
  rfl

theorem flatMap_placed_append_singleton {β : Type} (f : Nat × FileRead → List β)
    (files : List FileRead) (file : FileRead)
    : (placed parse prepare (files ++ [file])).flatMap f
        = (placed parse prepare files).flatMap f
          ++ f (stop (blockSize parse prepare) GraphExtractor.new.nextId files, file) := by
  rw [placed_append_singleton, List.flatMap_append, List.flatMap_singleton]

theorem stop_append_singleton (files : List FileRead) (file : FileRead)
    : stop (blockSize parse prepare) GraphExtractor.new.nextId (files ++ [file])
        = stop (blockSize parse prepare) GraphExtractor.new.nextId files
          + blockSize parse prepare file := by
  rw [stop_append]
  rfl

theorem lastUnder_append_singleton (rel : Text) (xs : List (Nat × FileRead)) (x : Nat × FileRead)
    : lastUnder rel (xs ++ [x])
        = if x.2.rel = rel ∧ x.2.content.isSome then some x else lastUnder rel xs := by
  unfold lastUnder
  rw [List.filter_append, List.filter_singleton]
  split
  . next h => simp [h]
  . next h => simp [h]

theorem exists_of_mem_subgraphAt {x : Nat × FileRead} {named : Option NamedNode}
    (h : named ∈ (subgraphAt parse prepare x).1)
    : ∃ node, named = some node := by
  unfold subgraphAt at h
  cases hout : outlineOf parse prepare x.2 with
  | none => simp [hout] at h
  | some outline =>
    rw [hout] at h
    obtain ⟨node, _, heq⟩ := List.mem_map.mp h
    exact ⟨node, heq.symm⟩

theorem mem_subgraphAt {x : Nat × FileRead} {node : NamedNode}
    (h : some node ∈ (subgraphAt parse prepare x).1)
    : x.1 ≤ node.id ∧ node.id < x.1 + blockSize parse prepare x.2 := by
  unfold subgraphAt blockSize at *
  cases hout : outlineOf parse prepare x.2 with
  | none => simp [hout] at h
  | some outline =>
    simp only [hout, Option.elim_some, List.mem_map, Option.some.injEq, exists_eq_right] at h ⊢
    exact FileOutline.id_mem_nodesAt h

theorem mem_edges_subgraphAt {x : Nat × FileRead} {e : Edge}
    (h : e ∈ (subgraphAt parse prepare x).2)
    : x.1 ≤ e.source ∧ e.source < e.target ∧ e.target < x.1 + blockSize parse prepare x.2 := by
  unfold subgraphAt blockSize at *
  cases hout : outlineOf parse prepare x.2 with
  | none => simp [hout] at h
  | some outline =>
    simp only [hout, Option.elim_some] at h ⊢
    exact FileOutline.mem_edgesAt h

theorem loaded_nil : Loaded parse prepare [] (.new, .new, .empty) where
  reachable := InMemoryGraph.Reachable.new
  nodes := .refl _
  below := nofun
  edges := .refl _
  nextId := rfl
  fileMap := by
    intro rel
    rfl

theorem Loaded.exists_named {st : InMemoryGraph × GraphExtractor × Dict Text NodeId}
    (h : Loaded parse prepare files st) {node : GraphNode} (hnode : node ∈ st.1.allNodes)
    : ∃ content x, node.named st.2.1.symbols = some content ∧ x ∈ placed parse prepare files
        ∧ some content ∈ (subgraphAt parse prepare x).1 := by
  have hmem := h.nodes.mem_iff.mp (List.mem_map_of_mem (f := (·.named st.2.1.symbols)) hnode)
  obtain ⟨x, hx, hnamed⟩ := List.mem_flatMap.mp hmem
  obtain ⟨content, hcontent⟩ := exists_of_mem_subgraphAt hnamed
  exact ⟨content, x, hcontent, hx, hcontent ▸ hnamed⟩

theorem Loaded.loadFile_of_none {st : InMemoryGraph × GraphExtractor × Dict Text NodeId}
    (h : Loaded parse prepare files st) {file : FileRead} (hcontent : file.content = none)
    : Loaded parse prepare (files ++ [file]) (loadFile parse prepare st file) := by
  have hnone := outlineOf_of_none parse prepare hcontent
  have hsub (b : Nat) : subgraphAt parse prepare (b, file) = ([], []) := by
    rw [subgraphAt, hnone]
    rfl
  have hload : ProjectState.loadFile parse prepare st file = st := by
    unfold ProjectState.loadFile
    rw [hcontent]
  rw [hload]
  refine ⟨h.reachable, ?_, h.below, ?_, ?_, ?_⟩
  . rw [flatMap_placed_append_singleton, hsub, List.append_nil]
    exact h.nodes
  . rw [flatMap_placed_append_singleton, hsub, List.append_nil]
    exact h.edges
  . rw [stop_append_singleton, ← h.nextId, blockSize, hnone]
    rfl
  . intro rel
    rw [placed_append_singleton, lastUnder_append_singleton, if_neg (by simp [hcontent])]
    exact h.fileMap rel

theorem perm_addNodes_extract {graph : InMemoryGraph} (hkeyed : InMemoryGraph.Keyed graph)
    {ex : GraphExtractor} (hbelow : ∀ node ∈ graph.allNodes, node.id < ex.nextId) (tree : Cst)
    (fileId : Nat)
    : (graph.addNodes (ex.extract tree fileId).1.1).allNodes
        ~ graph.allNodes ++ (ex.extract tree fileId).1.1 := by
  have hperm :=
    hkeyed.perm_addNodes (ex.extract_ids_nodup tree fileId)
      (ex.id_ne_zero_of_mem_extract tree fileId)
  have hkept : (graph.allNodes.filter fun node =>
    node.id ∉ (ex.extract tree fileId).1.1.map GraphNode.id)
      = graph.allNodes := by
    rw [List.filter_eq_self]
    intro node hnode
    rw [decide_eq_true_eq]
    intro hid
    have hlt : node.id < ex.nextId := hbelow node hnode
    have hle : ex.nextId ≤ node.id := (ex.le_id_of_mem_extract tree fileId hid).1
    exact absurd hlt (Nat.not_lt.mpr hle)
  rwa [hkept] at hperm

theorem Loaded.loadFile_of_some {st : InMemoryGraph × GraphExtractor × Dict Text NodeId}
    (h : Loaded parse prepare files st) {file : FileRead} {content : Text}
    (hcontent : file.content = some content)
    : Loaded parse prepare (files ++ [file]) (loadFile parse prepare st file) := by
  obtain ⟨graph, ex, fileMap⟩ := st
  have hsome := outlineOf_of_some parse prepare hcontent
  rw [ProjectState.loadFile, hcontent]
  dsimp only
  generalize parse (prepare content file.rel) none = tree at *
  have hsub (b : Nat) : subgraphAt parse prepare (b, file)
      = (((GraphExtractor.fileOutline tree).nodesAt b).map some,
          (GraphExtractor.fileOutline tree).edgesAt b) := by
    rw [subgraphAt, hsome]
    rfl
  have hextract := ex.extract_extracts tree 0
  have hfresh := perm_addNodes_extract h.reachable.keyed h.below tree 0
  obtain ⟨log, hlog⟩ := h.reachable.logs
  refine ⟨(h.reachable.addNodes _).addEdges _, ?_, ?_, ?_, ?_, ?_⟩
  . rw [InMemoryGraph.addEdges_allNodes, flatMap_placed_append_singleton, hsub, ← h.nextId,
      ← hextract.nodes]
    refine (hfresh.map _).trans ?_
    rw [List.map_append]
    refine List.Perm.append_right _ (.trans (.of_eq ?_) h.nodes)
    apply List.map_congr_left
    intro node hnode
    obtain ⟨content, _, hcontent, _, _⟩ := h.exists_named hnode
    exact (GraphNode.named_of_extends hextract.symbols hcontent).trans hcontent.symm
  . intro node hnode
    have hblock := GraphExtractor.takesBlock ex tree 0
    rw [InMemoryGraph.addEdges_allNodes] at hnode
    cases List.mem_append.mp (hfresh.mem_iff.mp hnode) with
    | inl hold =>
      have hlt : node.id < ex.nextId := h.below node hold
      exact hlt.trans_le (Nat.le_of_add_right_le hblock.counter)
    | inr hnew => exact (hblock.nodes node hnew).2
  . rw [flatMap_placed_append_singleton, hsub, ← h.nextId, ← hextract.edges]
    refine ((hlog.addNodes _).addEdges _).perm_allEdges.trans ?_
    exact (hlog.perm_allEdges.symm.trans h.edges).append_right _
  . rw [stop_append_singleton, ← h.nextId, blockSize, hsome]
    exact hextract.nextId
  . intro rel
    rw [placed_append_singleton, lastUnder_append_singleton, Dict.get?_insert,
      GraphExtractor.head?_extract, Option.getD_some, h.fileMap, ← h.nextId]
    by_cases hrel : rel = file.rel
    . simp [hrel, hcontent]
    . simp [hrel, Ne.symm hrel]

theorem Loaded.loadFile {st : InMemoryGraph × GraphExtractor × Dict Text NodeId}
    (h : Loaded parse prepare files st) (file : FileRead)
    : Loaded parse prepare (files ++ [file]) (loadFile parse prepare st file) := by
  cases hcontent : file.content with
  | none => exact h.loadFile_of_none hcontent
  | some content => exact h.loadFile_of_some hcontent

variable (parse prepare) in
theorem loaded_foldl (files : List FileRead)
    : Loaded parse prepare files (files.foldl (loadFile parse prepare) (.new, .new, .empty)) := by
  induction files using List.reverseRecOn with
  | nil => exact loaded_nil
  | append_singleton files file ih =>
    rw [List.foldl_append]
    exact ih.loadFile file

theorem subgraphs_eq (files : List FileRead)
    : subgraphs parse prepare files = (placed parse prepare files).map fun x =>
        (x.2, subgraphAt parse prepare x) :=
  subgraphsFrom_eq parse prepare .new files

variable (parse prepare) in
theorem consistsOf_subgraphs (files : List FileRead)
    : (loadFiles parse prepare files).ConsistsOf (subgraphs parse prepare files) := by
  have h := loaded_foldl parse prepare files
  rw [subgraphs_eq]
  refine ⟨?_, ?_, ?_⟩
  . intro node hnode
    obtain ⟨content, _, hcontent, _, _⟩ := h.exists_named hnode
    exact Option.isSome_iff_exists.mpr ⟨content, hcontent⟩
  . rw [List.flatMap_map]
    exact h.nodes
  . rw [List.flatMap_map]
    exact h.edges

/-! ## Two orders -/

variable {files' : List FileRead} {moves : List (Move FileRead)}

theorem relabel_subgraphAt (hsources : moves.map Move.source = placed parse prepare files)
    {m : Move FileRead} (hm : m ∈ moves)
    : (subgraphAt parse prepare m.source).relabel (renumber (blockSize parse prepare) moves)
        = subgraphAt parse prepare m.target := by
  have hmoved : ∀ id, m.Takes (blockSize parse prepare) id →
      renumber (blockSize parse prepare) moves id = id - m.1 + m.2.1 := by
    intro id hid
    refine renumber_eq ?_ hm hid
    rw [hsources]
    apply place_pairwise
  unfold subgraphAt Subgraph.relabel Move.source Move.target
  dsimp only
  cases hout : outlineOf parse prepare m.2.2 with
  | none => rfl
  | some outline =>
    have hsize : blockSize parse prepare m.2.2 = outline.size := by
      rw [blockSize, hout, Option.elim_some]
    simp only [Move.Takes, hsize] at hmoved
    simp only [Option.elim_some]
    have hnodes (b : NodeId) := outline.nodesAt_shift b 0
    have hedges (b : NodeId) := outline.edgesAt_shift b 0
    simp only [Nat.zero_add] at hnodes hedges
    rw [hnodes m.1, hnodes m.2.1, hedges m.1, hedges m.2.1]
    congr 1
    . simp only [List.map_map]
      apply List.map_congr_left
      intro node hnode
      have hid := FileOutline.id_mem_nodesAt hnode
      have := hmoved (node.id + m.1) (by grind)
      simp only [Function.comp_apply, Option.map_some, NamedNode.relabel, NamedNode.shift, this,
        Nat.add_sub_cancel]
    . simp only [List.map_map]
      apply List.map_congr_left
      intro e he
      have hends := FileOutline.mem_edgesAt he
      have hsource := hmoved (e.source + m.1) (by grind)
      have htarget := hmoved (e.target + m.1) (by grind)
      simp only [Function.comp_apply, Edge.relabel, Edge.shift, hsource, htarget,
        Nat.add_sub_cancel]

theorem subgraphs_perm (hsources : moves.map Move.source = placed parse prepare files)
    (htargets : moves.map Move.target ~ placed parse prepare files')
    : (subgraphs parse prepare files).map
          (fun e => (e.1, e.2.relabel (renumber (blockSize parse prepare) moves)))
        ~ subgraphs parse prepare files' := by
  rw [subgraphs_eq, subgraphs_eq, ← hsources, List.map_map, List.map_map]
  refine .trans (.of_eq ?_) (htargets.map fun x => (x.2, subgraphAt parse prepare x))
  rw [List.map_map]
  apply List.map_congr_left
  intro m hm
  simp only [Function.comp_apply, relabel_subgraphAt hsources hm]
  rfl

theorem exists_takes_of_uses (hsources : moves.map Move.source = placed parse prepare files)
    {id : NodeId} (hid : (loadFiles parse prepare files).Uses id)
    : ∃ m ∈ moves, m.Takes (blockSize parse prepare) id := by
  have h := loaded_foldl parse prepare files
  have hplaced : ∀ x ∈ placed parse prepare files, x.1 ≤ id
      ∧ id < x.1 + blockSize parse prepare x.2 →
      ∃ m ∈ moves, m.Takes (blockSize parse prepare) id := by
    intro x hx hbounds
    rw [← hsources] at hx
    obtain ⟨m, hm, rfl⟩ := List.mem_map.mp hx
    exact ⟨m, hm, hbounds⟩
  cases hid with
  | inl hid =>
    obtain ⟨node, hnode, rfl⟩ := List.mem_map.mp hid
    obtain ⟨content, x, hnamed, hx, hcontent⟩ := h.exists_named hnode
    have hbounds := mem_subgraphAt hcontent
    rw [← GraphNode.id_of_named hnamed] at hbounds
    exact hplaced x hx hbounds
  | inr hid =>
    obtain ⟨e, he, hend⟩ := hid
    obtain ⟨x, hx, he⟩ := List.mem_flatMap.mp (h.edges.mem_iff.mp he)
    have hbounds := mem_edges_subgraphAt he
    apply hplaced x hx
    cases hend with
    | inl heq => grind
    | inr heq => grind

theorem lastUnder_eq [DecidableEq FileRead] {rel : Text} {l l' : List (Nat × FileRead)}
    (hperm : l ~ l') (hfilter : ∀ file, l.filter (·.2 = file) = l'.filter (·.2 = file))
    (hsame : ∀ x ∈ l, ∀ y ∈ l, x.2.rel = rel → y.2.rel = rel → x.2 = y.2)
    : lastUnder rel l = lastUnder rel l' := by
  unfold lastUnder
  by_cases hsome : ∃ x ∈ l, x.2.rel = rel ∧ x.2.content.isSome
  . -- all blocks of the path are those of one file
    obtain ⟨x, hx, hrel, hcontent⟩ := hsome
    have hfile : ∀ y ∈ l, (y.2.rel = rel ∧ y.2.content.isSome) ↔ y.2 = x.2 := by
      intro y hy
      constructor
      . rintro ⟨hyrel, _⟩
        exact hsame y hy x hx hyrel hrel
      . intro heq
        rw [heq]
        exact ⟨hrel, hcontent⟩
    have hleft : l.filter (fun y => y.2.rel = rel ∧ y.2.content.isSome) = l.filter (·.2 = x.2) := by
      apply List.filter_congr
      intro y hy
      rw [decide_eq_decide]
      exact hfile y hy
    have hright : l'.filter (fun y => y.2.rel = rel ∧ y.2.content.isSome)
        = l'.filter (·.2 = x.2) := by
      apply List.filter_congr
      intro y hy
      rw [decide_eq_decide]
      exact hfile y (hperm.mem_iff.mpr hy)
    rw [hleft, hright, hfilter]
  . have hnone : l.filter (fun y => y.2.rel = rel ∧ y.2.content.isSome) = [] := by
      rw [List.filter_eq_nil_iff]
      intro y hy
      rw [decide_eq_true_eq]
      exact fun h => hsome ⟨y, hy, h⟩
    have hperm' := hperm.filter fun y => y.2.rel = rel ∧ y.2.content.isSome
    rw [hnone] at hperm'
    rw [hnone, hperm'.nil_eq]

theorem fileMap_renumber [DecidableEq FileRead]
    (hsources : moves.map Move.source = placed parse prepare files)
    (htargets : moves.map Move.target ~ placed parse prepare files')
    (hfilter : ∀ file,
      (moves.map Move.target).filter (·.2 = file)
      = (placed parse prepare files').filter (·.2 = file))
    {rel : Text}
    (hsame : ∀ file ∈ files, ∀ file' ∈ files, file.rel = rel → file'.rel = rel → file = file')
    : (loadFiles parse prepare files').fileMap.get? rel
        = ((loadFiles parse prepare files).fileMap.get? rel).map
          (renumber (blockSize parse prepare) moves) := by
  have hsame' : ∀ x ∈ moves.map Move.target, ∀ y ∈ moves.map Move.target,
      x.2.rel = rel → y.2.rel = rel → x.2 = y.2 := by
    have hmem : ∀ m ∈ moves, m.2.2 ∈ files := by
      intro m hm
      have hx : m.source ∈ placed parse prepare files := hsources ▸ List.mem_map_of_mem hm
      have hfile : m.source.2 ∈ (placed parse prepare files).map Prod.snd := List.mem_map_of_mem hx
      rwa [placed, map_snd_place] at hfile
    intro x hx y hy
    obtain ⟨m, hm, rfl⟩ := List.mem_map.mp hx
    obtain ⟨m', hm', rfl⟩ := List.mem_map.mp hy
    exact hsame m.2.2 (hmem m hm) m'.2.2 (hmem m' hm')
  have hmap := (loaded_foldl parse prepare files).fileMap rel
  have hmap' := (loaded_foldl parse prepare files').fileMap rel
  rw [← hsources] at hmap
  rw [← lastUnder_eq htargets hfilter hsame'] at hmap'
  refine Eq.trans hmap' (Eq.trans ?_ (congrArg _ hmap.symm))
  unfold lastUnder
  rw [List.filter_map, List.filter_map, List.getLast?_map, List.getLast?_map, Option.map_map,
    Option.map_map, Option.map_map]
  apply Option.map_congr
  intro m hm
  have hm := List.mem_filter.mp (List.mem_of_getLast? hm)
  have hcontent : m.2.2.content.isSome := (of_decide_eq_true hm.2).2
  obtain ⟨content, hcontent⟩ := Option.isSome_iff_exists.mp hcontent
  have hpos : 0 < blockSize parse prepare m.2.2 := by
    rw [blockSize, outlineOf, hcontent]
    exact FileOutline.size_pos _
  have htakes : m.Takes (blockSize parse prepare) m.1 :=
    ⟨Nat.le_refl _, Nat.lt_add_of_pos_right hpos⟩
  have hpairwise : (moves.map Move.source).Pairwise (Disjoint (blockSize parse prepare)) := by
    rw [hsources]
    apply place_pairwise
  have hmoved := renumber_eq hpairwise hm.1 htakes
  rw [Nat.sub_self, Nat.zero_add] at hmoved
  exact hmoved.symm

variable (parse prepare) in
theorem exists_isomorphic (h : files ~ files')
    : ∃ σ, Isomorphic σ files (subgraphs parse prepare files) (subgraphs parse prepare files')
        (loadFiles parse prepare files) (loadFiles parse prepare files') := by
  classical
  obtain ⟨moves, hsources, htargets, hfilter⟩ :=
    exists_moves (blockSize parse prepare) GraphExtractor.new.nextId
    GraphExtractor.new.nextId h
  have hconsists := consistsOf_subgraphs parse prepare files
  have hconsists' := consistsOf_subgraphs parse prepare files'
  have hsubs := subgraphs_perm hsources htargets
  refine ⟨renumber (blockSize parse prepare) moves, ?_, ?_, ?_, hsubs, ?_⟩
  . have hfrom : (moves.map Move.source).Pairwise (Disjoint (blockSize parse prepare)) := by
      rw [hsources]
      apply place_pairwise
    have hto : (moves.map Move.target).Pairwise (Disjoint (blockSize parse prepare)) :=
      (htargets.pairwise_iff fun h => h.symm).mpr (place_pairwise _ _)
    exact (renumber_injOn hfrom hto).mono fun id hid => exists_takes_of_uses hsources hid
  . have hmap :=
      hconsists.nodes.map (Option.map (·.relabel (renumber (blockSize parse prepare) moves)))
    rw [List.map_map, List.map_flatMap] at hmap
    have hflat := hsubs.flatMap_right fun e => e.2.1
    rw [List.flatMap_map] at hflat
    exact hmap.trans (hflat.trans hconsists'.nodes.symm)
  . have hmap := hconsists.edges.map (·.relabel (renumber (blockSize parse prepare) moves))
    rw [List.map_flatMap] at hmap
    have hflat := hsubs.flatMap_right fun e => e.2.2
    rw [List.flatMap_map] at hflat
    exact hmap.trans (hflat.trans hconsists'.edges.symm)
  . intro rel hsame
    exact fileMap_renumber hsources htargets hfilter hsame

end

end ProjectState

/--
What `extract` makes of a tree does not depend on what was extracted before, but for a shift of the
ids; each call takes its own block of ids. So two orders of the same files give isomorphic graphs,
in which each file has the same subgraph.
-/
theorem extract_independent
    : (∀ (ex ex' : GraphExtractor) (tree : Cst) (fileId fileId' : Nat),
        ex.ExtractAlike ex' tree fileId fileId' ∧ ex.TakesBlock tree fileId)
      ∧ ∀ (parse : Text → Option Cst → Cst) (prepare : Text → Text →
          Text) (files files' : List FileRead),
        files ~ files' →
        let state := ProjectState.loadFiles parse prepare files
        let state' := ProjectState.loadFiles parse prepare files'
        let subs := ProjectState.subgraphs parse prepare files
        let subs' := ProjectState.subgraphs parse prepare files'
        state.ConsistsOf subs ∧ state'.ConsistsOf subs'
          ∧ ∃ σ, ProjectState.Isomorphic σ files subs subs' state state' := by
  constructor
  . intro ex ex' tree fileId fileId'
    exact ⟨ex.extractAlike ex' tree fileId fileId', ex.takesBlock tree fileId⟩
  . intro parse prepare files files' h
    exact ⟨ProjectState.consistsOf_subgraphs parse prepare files,
      ProjectState.consistsOf_subgraphs parse prepare files',
      ProjectState.exists_isomorphic parse prepare h⟩

theorem extract_independent_packages
    : let file : String → String → FileRead := fun rel content => ⟨rel.toList, some content.toList⟩
      let files := [file "a.sv" "package p; endpackage", file "b.sv" "package q; endpackage"]
      let state := ProjectState.loadOrBuild IndexedProject.parsePackage files
      let state' := ProjectState.loadOrBuild IndexedProject.parsePackage files.reverse
      let subs := ProjectState.subgraphs IndexedProject.parsePackage (fun source _ => source) files
      let subs' :=
        ProjectState.subgraphs IndexedProject.parsePackage (fun source _ => source) files.reverse
      state.ConsistsOf subs ∧ state'.ConsistsOf subs'
        ∧ ∃ σ, ProjectState.Isomorphic σ files subs subs' state state' := by
  intro file files
  exact extract_independent.2 IndexedProject.parsePackage (fun source _ => source)
    files files.reverse
    files.reverse_perm.symm

end HdlGraph
