import HdlGraph.Library.Dfs
import HdlGraph.Library.Path
import HdlGraph.Parse.Extractor.Defined
import HdlGraph.Project.Rebuild

/-!
This module contains the index of the language server and its search for definitions, and when that
search answers with the file that has the definition.
-/

namespace HdlGraph
namespace Lsp

open scoped List

/-! ## The index -/

-- A directory; what is below it or cannot be read has no content
structure Directory where
  entries : List (FileName × Option Text)
  nodup : (entries.map Prod.fst).Nodup

structure IndexState where
  graph : InMemoryGraph
  symbols : SymbolTable
  fileMap : Dict Text NodeId

structure IndexLoop where
  extractor : GraphExtractor
  graph : InMemoryGraph
  fileMap : Dict Text NodeId
  fileId : Nat

def sourceFiles (project : PathBuf) (dir : Directory) : List FileRead :=
  let isHdlFile : PathBuf → Bool := fun path =>
    match path.extension with
    | some ext => ["sv".toList, "svh".toList, "v".toList, "vh".toList].contains ext
    | none => false
  (dir.entries.filter fun entry => isHdlFile (project.child [entry.1])).map fun entry =>
    ⟨project.relTo (project.child [entry.1]), entry.2⟩

namespace IndexLoop

def new : IndexLoop where
  extractor := .new
  graph := .new
  fileMap := .empty
  fileId := 0

def indexTree (state : IndexLoop) (rel : Text) (tree : Cst) : IndexLoop :=
  let fileId := state.fileId + 1
  let ((nodes, edges), extractor) := state.extractor.extract tree fileId
  {
    extractor
    graph := (state.graph.addNodes nodes).addEdges edges
    fileMap := state.fileMap.insert rel fileId
    fileId
  }

def indexFile (parse : Text → Option Cst → Cst) (state : IndexLoop) (file : FileRead) : IndexLoop :=
  match file.content with
  | none => state
  | some content => state.indexTree file.rel (parse content none)

def indexFiles (parse : Text → Option Cst → Cst) (files : List FileRead) : IndexLoop :=
  files.foldl (indexFile parse) new

def finish (state : IndexLoop) : IndexState where
  graph := state.graph
  symbols := state.extractor.symbols
  fileMap := state.fileMap

end IndexLoop

def buildIndex (parse : Text → Option Cst → Cst) (project : PathBuf) (dir : Directory)
    : IndexState :=
  (IndexLoop.indexFiles parse (sourceFiles project dir)).finish

/-! ## The search -/

def nodeMatchesSymbol (node : GraphNode) (symbols : SymbolTable) (symbol : Text) : Bool :=
  match node.kind with
  | .module name => symbols.resolve name = some symbol
  | .class name _ => symbols.resolve name = some symbol
  | .package name => symbols.resolve name = some symbol
  | .interface name => symbols.resolve name = some symbol
  | .function name _ => symbols.resolve name = some symbol
  | .signalDecl name _ => symbols.resolve name = some symbol
  | .modulePort name _ => symbols.resolve name = some symbol
  | .moduleInstance name _ => symbols.resolve name = some symbol
  | _ => false

namespace IndexState

def isDefinition (state : IndexState) (symbol : Text) (nid : NodeId) : Bool :=
  match state.graph.getNode nid with
  | some node => nodeMatchesSymbol node state.symbols symbol
  | none => false

def below (state : IndexState) (nid : NodeId) : List NodeId :=
  match state.graph.getNode nid with
  | some _ =>
    ((state.graph.getOutgoing nid).filter fun e => e.edgeType = .contains
      ∨ e.edgeType = .defines).map Edge.target
  | none => []

-- The search loop of `goto_definition` over the entries of the file map, which come in any order.
-- It gives the file that is answered, if there is one.
def gotoDefinition (state : IndexState) (fuel : Nat) (symbol : Text)
    : List (Text × NodeId) → Option (Option Text)
  | [] => some none
  | (file, fid) :: rest =>
    match Dfs.search (state.isDefinition symbol) state.below fuel [fid] [] with
    | none => none
    | some true => some (some file)
    | some false => gotoDefinition state fuel symbol rest

theorem isDefinition_eq_true_iff {state : IndexState} {symbol : Text} {nid : NodeId}
    : state.isDefinition symbol nid = true
        ↔
      ∃ node, state.graph.getNode nid = some node
        ∧ nodeMatchesSymbol node state.symbols symbol = true := by
  unfold isDefinition
  cases state.graph.getNode nid <;> simp

theorem mem_below_iff {state : IndexState} {nid target : NodeId}
    : target ∈ state.below nid
        ↔
      (∃ node, state.graph.getNode nid = some node)
        ∧ ∃ e ∈ state.graph.getOutgoing nid, e.edgeType.isScope = true ∧ e.target = target := by
  have hscope : ∀ edgeType : EdgeType, edgeType = .contains ∨ edgeType = .defines
      ↔ edgeType.isScope = true := by
    intro edgeType
    cases edgeType <;> decide
  unfold below
  cases state.graph.getNode nid <;> simp [hscope, and_assoc]

end IndexState

/-! ## The property -/

section

variable (parse : Text → Option Cst → Cst) (files : List FileRead)

def Extracted (rel : Text) (nodes : List GraphNode) (edges : List Edge) : Prop :=
  ∃ before file after content, files = before ++ file :: after ∧ file.rel = rel
    ∧ file.content = some content
    ∧ ((IndexLoop.indexFiles parse before).extractor.extract (parse content none)
        ((IndexLoop.indexFiles parse before).fileId + 1)).1 = (nodes, edges)

structure AnswersWithDefiningFile (index : IndexState) : Prop where
  ids : ∀ rel id, index.fileMap.get? rel = some id →
    ∃ nodes edges, Extracted parse files rel nodes edges ∧ ∃ node ∈ nodes, node.kind = .sourceFile
      ∧ node.id = id
  sound : ∀ entries symbol fuel rel, entries ~ index.fileMap.toList →
    index.gotoDefinition fuel symbol entries = some (some rel) →
    ∃ nodes edges, Extracted parse files rel nodes edges
      ∧ ∃ node ∈ nodes, nodeMatchesSymbol node index.symbols symbol = true
  complete : ∀ entries symbol rel nodes edges, entries ~ index.fileMap.toList →
    Extracted parse files rel nodes edges →
    (∃ node ∈ nodes, nodeMatchesSymbol node index.symbols symbol = true) →
    ∃ bound rel', ∀ fuel, bound ≤ fuel → index.gotoDefinition fuel symbol entries = some (some rel')

def fileOutlines : List FileOutline :=
  files.filterMap fun file => file.content.map fun content =>
    GraphExtractor.fileOutline (parse content none)

/--
Only the last file that can be read declares anything, and what its modules without a name declare
is declared elsewhere in it too.
-/
def OnlyLastDeclares : Prop :=
  ∀ before last, fileOutlines parse files = before ++ [last] →
    (∀ outline ∈ before, outline.items = []) ∧ ∀ name ∈ last.hiddenNames, name ∈ last.shownNames

end

/-! ## What the index holds -/

def sizes : List FileOutline → Nat
  | [] => 0
  | file :: rest => file.size + sizes rest

def nodesFrom (b : NodeId) : List FileOutline → List NamedNode
  | [] => []
  | file :: rest => file.nodesAt b ++ nodesFrom (b + file.size) rest

def edgesFrom (b : NodeId) : List FileOutline → List Edge
  | [] => []
  | file :: rest => file.edgesAt b ++ edgesFrom (b + file.size) rest

theorem sizes_append (files files' : List FileOutline)
    : sizes (files ++ files') = sizes files + sizes files' := by
  induction files with
  | nil => simp [sizes]
  | cons file rest ih => simp [sizes, ih, Nat.add_assoc]

theorem nodesFrom_append (b : NodeId) (files files' : List FileOutline)
    : nodesFrom b (files ++ files') = nodesFrom b files ++ nodesFrom (b + sizes files) files' := by
  induction files generalizing b with
  | nil => simp [nodesFrom, sizes]
  | cons file rest ih => simp [nodesFrom, sizes, ih, Nat.add_assoc]

theorem edgesFrom_append (b : NodeId) (files files' : List FileOutline)
    : edgesFrom b (files ++ files') = edgesFrom b files ++ edgesFrom (b + sizes files) files' := by
  induction files generalizing b with
  | nil => simp [edgesFrom, sizes]
  | cons file rest ih => simp [edgesFrom, sizes, ih, Nat.add_assoc]

theorem length_le_sizes (files : List FileOutline) : files.length ≤ sizes files := by
  induction files with
  | nil => simp [sizes]
  | cons file rest ih =>
    have := file.size_pos
    simp only [List.length_cons, sizes]
    omega

theorem id_mem_nodesFrom {b : NodeId} {files : List FileOutline} {node : NamedNode}
    (hnode : node ∈ nodesFrom b files)
    : b ≤ node.id ∧ node.id < b + sizes files := by
  induction files generalizing b with
  | nil => simp [nodesFrom] at hnode
  | cons file rest ih =>
    rw [nodesFrom, List.mem_append] at hnode
    rw [sizes]
    cases hnode with
    | inl hnode =>
      have := FileOutline.id_mem_nodesAt hnode
      grind
    | inr hnode =>
      have := ih hnode
      grind

structure Indexed (outlines : List FileOutline) (state : IndexLoop) : Prop where
  fileId : state.fileId = outlines.length
  nextId : state.extractor.nextId = 1 + sizes outlines
  nodes : state.graph.allNodes.map (·.named state.extractor.symbols)
    ~ (nodesFrom 1 outlines).map some
  edges : state.graph.Logs (edgesFrom 1 outlines)
  keyed : state.graph.Keyed

namespace Indexed

theorem new : Indexed [] .new where
  fileId := rfl
  nextId := rfl
  nodes := .refl _
  edges := .new
  keyed := .new

theorem indexTree {outlines : List FileOutline} {state : IndexLoop} (h : Indexed outlines state)
    (rel : Text) (tree : Cst)
    : Indexed (outlines ++ [GraphExtractor.fileOutline tree]) (state.indexTree rel tree) where
  fileId := by
    rw [List.length_append, ← h.fileId]
    rfl
  nextId := by
    have hnext := (state.extractor.extract_extracts tree (state.fileId + 1)).nextId
    rw [h.nextId] at hnext
    rw [sizes_append, ← Nat.add_assoc]
    exact hnext
  nodes := by
    have hextract := state.extractor.extract_extracts tree (state.fileId + 1)
    have hperm := h.keyed.perm_addNodes (state.extractor.extract_ids_nodup tree (state.fileId + 1))
      (state.extractor.id_ne_zero_of_mem_extract tree (state.fileId + 1))
    have hold := map_named_extends hextract.symbols h.nodes
    have hids := hextract.map_id
    have hfilter : (state.graph.allNodes.filter fun node =>
        node.id ∉ (state.extractor.extract tree (state.fileId + 1)).1.1.map GraphNode.id)
          = state.graph.allNodes := by
      rw [List.filter_eq_self]
      intro node hnode
      obtain ⟨content, hcontent, hnamed⟩ :=
        List.mem_map.mp (h.nodes.mem_iff.mp (List.mem_map_of_mem hnode))
      have hid := (GraphNode.id_of_named hnamed.symm).symm
      have hlt := (id_mem_nodesFrom hcontent).2
      rw [decide_eq_true_eq, hids]
      intro hmem
      obtain ⟨content', hcontent', hid'⟩ := List.mem_map.mp hmem
      have hle := (FileOutline.id_mem_nodesAt hcontent').1
      have hnext := h.nextId
      grind
    rw [hfilter] at hperm
    have hall := hperm.map (·.named (state.extractor.extract tree (state.fileId + 1)).2.symbols)
    rw [List.map_append, hextract.nodes] at hall
    change ((state.graph.addNodes _).addEdges _).allNodes.map _ ~ _
    rw [InMemoryGraph.addEdges_allNodes, nodesFrom_append, List.map_append]
    refine hall.trans (hold.append (.of_eq ?_))
    rw [nodesFrom, nodesFrom, List.append_nil, h.nextId]
  edges := by
    have hedges := (state.extractor.extract_extracts tree (state.fileId + 1)).edges
    rw [h.nextId] at hedges
    rw [edgesFrom_append, edgesFrom, edgesFrom, List.append_nil, ← hedges]
    exact (h.edges.addNodes _).addEdges _
  keyed := (h.keyed.addNodes _).addEdges _

end Indexed

section

variable {parse : Text → Option Cst → Cst} {files : List FileRead}

def parsedFiles (parse : Text → Option Cst → Cst) (files : List FileRead) : List (Text × Cst) :=
  files.filterMap fun file => file.content.map fun content => (file.rel, parse content none)

def indexTrees (trees : List (Text × Cst)) : IndexLoop :=
  trees.foldl (fun state t => state.indexTree t.1 t.2) .new

theorem indexFiles_eq (parse : Text → Option Cst → Cst) (files : List FileRead)
    : IndexLoop.indexFiles parse files = indexTrees (parsedFiles parse files) := by
  unfold IndexLoop.indexFiles indexTrees parsedFiles
  generalize IndexLoop.new = state
  induction files generalizing state with
  | nil => rfl
  | cons file rest ih =>
    rw [List.foldl_cons, ih, IndexLoop.indexFile]
    cases hcontent : file.content with
    | none => rw [List.filterMap_cons_none (by rw [hcontent]; rfl)]
    | some content => rw [List.filterMap_cons_some (by rw [hcontent]; rfl), List.foldl_cons]

theorem fileOutlines_eq (parse : Text → Option Cst → Cst) (files : List FileRead)
    : fileOutlines parse files = (parsedFiles parse files).map fun t =>
        GraphExtractor.fileOutline t.2 := by
  rw [fileOutlines, parsedFiles, List.map_filterMap]
  congr 1
  funext file
  cases file.content <;> rfl

theorem indexTrees_concat (trees : List (Text × Cst)) (t : Text × Cst)
    : indexTrees (trees ++ [t]) = (indexTrees trees).indexTree t.1 t.2 := by
  simp [indexTrees]

theorem indexed_indexTrees (trees : List (Text × Cst))
    : Indexed (trees.map fun t => GraphExtractor.fileOutline t.2) (indexTrees trees) := by
  induction trees using List.reverseRecOn with
  | nil => exact .new
  | append_singleton trees t ih =>
    rw [indexTrees_concat, List.map_append]
    exact ih.indexTree t.1 t.2

theorem extracted_iff {rel : Text} {nodes : List GraphNode} {edges : List Edge}
    : Extracted parse files rel nodes edges
        ↔
      ∃ before tree after, parsedFiles parse files = before ++ (rel, tree) :: after
        ∧ ((indexTrees before).extractor.extract tree (before.length + 1)).1 = (nodes, edges) := by
  have hfileId : ∀ trees : List (Text × Cst), (indexTrees trees).fileId = trees.length := by
    intro trees
    rw [(indexed_indexTrees trees).fileId, List.length_map]
  constructor
  . rintro ⟨before, file, after, content, rfl, rfl, hcontent, hresult⟩
    rw [indexFiles_eq, hfileId] at hresult
    refine ⟨parsedFiles parse before, parse content none, parsedFiles parse after, ?_, hresult⟩
    rw [parsedFiles, List.filterMap_append, List.filterMap_cons_some (by rw [hcontent]; rfl)]
    rfl
  . rintro ⟨before, tree, after, hsplit, hresult⟩
    obtain ⟨front, back, rfl, hfront, hback⟩ := List.filterMap_eq_append_iff.mp hsplit
    obtain ⟨skipped, file, rest, rfl, hskipped, hfile, _⟩ := List.filterMap_eq_cons_iff.mp hback
    obtain ⟨content, hcontent, heq⟩ := Option.map_eq_some_iff.mp hfile
    rw [Prod.mk.injEq] at heq
    have hnone : parsedFiles parse skipped = [] := List.filterMap_eq_nil_iff.mpr hskipped
    have hparsed : parsedFiles parse (front ++ skipped) = before := by
      rw [parsedFiles, List.filterMap_append, hfront]
      exact (congrArg (before ++ ·) hnone).trans (List.append_nil before)
    refine ⟨front ++ skipped, file, rest, content, by simp, heq.1, hcontent, ?_⟩
    rw [indexFiles_eq, hparsed, hfileId, heq.2]
    exact hresult

theorem get?_fileMap_indexTrees {trees : List (Text × Cst)} (hrels : (trees.map Prod.fst).Nodup)
    {rel : Text} {id : NodeId}
    : (indexTrees trees).fileMap.get? rel = some id
        ↔
      ∃ before tree after, trees = before ++ (rel, tree) :: after ∧ id = before.length + 1 := by
  induction trees using List.reverseRecOn with
  | nil => simp [indexTrees, IndexLoop.new]
  | append_singleton trees t ih =>
    rw [List.map_append, List.nodup_append] at hrels
    rw [indexTrees_concat]
    change ((indexTrees trees).fileMap.insert t.1 ((indexTrees trees).fileId + 1)).get? rel = _ ↔ _
    rw [(indexed_indexTrees trees).fileId, List.length_map, Dict.get?_insert]
    constructor
    . intro h
      split at h
      . next hrel => exact ⟨trees, t.2, [], by rw [hrel], (Option.some.inj h).symm⟩
      . obtain ⟨before, tree, after, rfl, hid⟩ := (ih hrels.1).mp h
        exact ⟨before, tree, after ++ [t], by simp, hid⟩
    . rintro ⟨before, tree, after, hsplit, hid⟩
      rcases List.eq_nil_or_concat after with rfl | ⟨after, t', rfl⟩
      . obtain ⟨rfl, heq⟩ := List.append_inj' hsplit rfl
        rw [List.singleton_inj] at heq
        rw [heq, if_pos rfl, hid]
      . rw [List.concat_eq_append, ← List.cons_append, ← List.append_assoc] at hsplit
        obtain ⟨rfl, _⟩ := List.append_inj' hsplit rfl
        have hne : rel ≠ t.1 := hrels.2.2 rel (by simp) t.1 (by simp)
        rw [if_neg hne]
        exact (ih hrels.1).mpr ⟨before, tree, after, rfl, hid⟩

end

/-! ## Definitions in the index -/

theorem nodeMatchesSymbol_iff {node : GraphNode} {symbols : SymbolTable} {content : NamedNode}
    (h : node.named symbols = some content) (symbol : Text)
    : nodeMatchesSymbol node symbols symbol = true ↔ content.kind.definedName = some symbol := by
  have hsays := GraphNode.says_of_named h
  unfold nodeMatchesSymbol
  generalize node.kind = kind at hsays ⊢
  generalize content.kind = named at hsays ⊢
  cases hsays <;> grind [NodeKind.definedName]

namespace Indexed

variable {outlines : List FileOutline} {state : IndexLoop}

theorem exists_named (h : Indexed outlines state) {id : NodeId} {node : GraphNode}
    (hnode : state.graph.getNode id = some node)
    : ∃ content ∈ nodesFrom 1 outlines, node.named state.extractor.symbols = some content
        ∧ content.id = id := by
  obtain ⟨hmem, hid⟩ := h.keyed.getNode_eq_some_iff.mp hnode
  obtain ⟨content, hcontent, hnamed⟩ :=
    List.mem_map.mp (h.nodes.mem_iff.mp (List.mem_map_of_mem hmem))
  exact ⟨content, hcontent, hnamed.symm, (GraphNode.id_of_named hnamed.symm).symm.trans hid⟩

theorem exists_getNode (h : Indexed outlines state) {content : NamedNode}
    (hcontent : content ∈ nodesFrom 1 outlines)
    : ∃ node, state.graph.getNode content.id = some node
        ∧ node.named state.extractor.symbols = some content := by
  obtain ⟨node, hnode, hnamed⟩ :=
    List.mem_map.mp (h.nodes.mem_iff.mpr (List.mem_map_of_mem hcontent))
  exact ⟨node, h.keyed.getNode_eq_some_iff.mpr ⟨hnode, GraphNode.id_of_named hnamed⟩, hnamed⟩

theorem isDefinition_iff (h : Indexed outlines state) (symbol : Text) (id : NodeId)
    : state.finish.isDefinition symbol id = true
        ↔
      ∃ content ∈ nodesFrom 1 outlines, content.id = id
        ∧ content.kind.definedName = some symbol := by
  rw [IndexState.isDefinition_eq_true_iff]
  constructor
  . rintro ⟨node, hnode, hmatches⟩
    obtain ⟨content, hcontent, hnamed, hid⟩ := h.exists_named hnode
    exact ⟨content, hcontent, hid, (nodeMatchesSymbol_iff hnamed symbol).mp hmatches⟩
  . rintro ⟨content, hcontent, rfl, hname⟩
    obtain ⟨node, hnode, hnamed⟩ := h.exists_getNode hcontent
    exact ⟨node, hnode, (nodeMatchesSymbol_iff hnamed symbol).mpr hname⟩

theorem mem_below_iff (h : Indexed outlines state) {id target : NodeId}
    : target ∈ state.finish.below id
        ↔
      (∃ content ∈ nodesFrom 1 outlines, content.id = id)
        ∧ ∃ e ∈ scopeEdges (edgesFrom 1 outlines), e.source = id ∧ e.target = target := by
  rw [IndexState.mem_below_iff]
  change _ ∧ (∃ e ∈ state.graph.getOutgoing id, _) ↔ _
  simp only [h.edges.mem_getOutgoing, mem_scopeEdges]
  constructor
  . rintro ⟨⟨node, hnode⟩, hedge⟩
    obtain ⟨content, hcontent, _, hid⟩ := h.exists_named hnode
    exact ⟨⟨content, hcontent, hid⟩, by grind⟩
  . rintro ⟨⟨content, hcontent, rfl⟩, hedge⟩
    obtain ⟨node, hnode, _⟩ := h.exists_getNode hcontent
    exact ⟨⟨node, hnode⟩, by grind⟩

end Indexed

/-! ## When only the last file declares anything -/

theorem sizes_of_empty {outlines : List FileOutline} (h : ∀ outline ∈ outlines, outline.items = [])
    : sizes outlines = outlines.length := by
  induction outlines with
  | nil => rfl
  | cons outline rest ih =>
    have hrest := ih fun other hother => h other (List.mem_cons_of_mem _ hother)
    have hsize : outline.size = 1 := by
      rw [FileOutline.size, h outline List.mem_cons_self, TopItem.sizeAll_nil]
    rw [sizes, List.length_cons, hsize, hrest, Nat.add_comm]

theorem items_eq_nil_of_size {outline : FileOutline} (h : outline.size = 1)
    : outline.items = [] := by
  cases hitems : outline.items with
  | nil => rfl
  | cons item rest =>
    have hpos := item.outline.size_pos
    rw [FileOutline.size, hitems, TopItem.sizeAll_cons] at h
    unfold TopItem.size at h
    omega

theorem empty_of_sizes {outlines : List FileOutline} (h : sizes outlines ≤ outlines.length)
    : ∀ outline ∈ outlines, outline.items = [] := by
  induction outlines with
  | nil => simp
  | cons outline rest ih =>
    have hpos := outline.size_pos
    have hle := length_le_sizes rest
    rw [sizes, List.length_cons] at h
    intro other hother
    cases List.mem_cons.mp hother with
    | inl heq => exact heq ▸ items_eq_nil_of_size (by omega)
    | inr hother => exact ih (by omega) other hother

theorem edgesFrom_of_empty {outlines : List FileOutline}
    (h : ∀ outline ∈ outlines, outline.items = []) (b : NodeId)
    : edgesFrom b outlines = [] := by
  induction outlines generalizing b with
  | nil => rfl
  | cons outline rest ih =>
    rw [edgesFrom, ih (fun other hother => h other (List.mem_cons_of_mem _ hother)),
      FileOutline.edgesAt, h outline List.mem_cons_self]
    rfl

theorem definedName_of_empty {outlines : List FileOutline}
    (h : ∀ outline ∈ outlines, outline.items = []) {b : NodeId} {content : NamedNode}
    (hcontent : content ∈ nodesFrom b outlines)
    : content.kind.definedName = none := by
  induction outlines generalizing b with
  | nil => simp [nodesFrom] at hcontent
  | cons outline rest ih =>
    rw [nodesFrom, FileOutline.nodesAt, h outline List.mem_cons_self, List.mem_append] at hcontent
    cases hcontent with
    | inl hroot =>
      rw [List.mem_singleton.mp hroot]
      rfl
    | inr hcontent =>
      exact ih (fun other hother => h other (List.mem_cons_of_mem _ hother)) hcontent

namespace Indexed

variable {before : List FileOutline} {last : FileOutline} {state : IndexLoop}

theorem edgesFrom_eq (hbefore : ∀ outline ∈ before, outline.items = [])
    : edgesFrom 1 (before ++ [last]) = last.edgesAt (before.length + 1) := by
  rw [edgesFrom_append, edgesFrom_of_empty hbefore, sizes_of_empty hbefore, edgesFrom, edgesFrom,
    List.nil_append, List.append_nil, Nat.add_comm]

theorem mem_nodesFrom_iff (hbefore : ∀ outline ∈ before, outline.items = []) {content : NamedNode}
    : content ∈ nodesFrom 1 (before ++ [last])
        ↔
      content ∈ nodesFrom 1 before ∨ content ∈ last.nodesAt (before.length + 1) := by
  rw [nodesFrom_append, sizes_of_empty hbefore, nodesFrom, nodesFrom, List.append_nil,
    List.mem_append, Nat.add_comm]

theorem not_found_before (h : Indexed (before ++ [last]) state)
    (hbefore : ∀ outline ∈ before, outline.items = []) {id : NodeId} (hid : id ≤ before.length)
    (symbol : Text)
    : ¬∃ v, Dfs.Reaches state.finish.below id v ∧ state.finish.isDefinition symbol v = true := by
  rintro ⟨v, hreach, hdef⟩
  have hv : v = id := by
    clear hdef
    induction hreach with
    | refl => rfl
    | tail _ hstep ih =>
      subst ih
      obtain ⟨_, e, he, hsource, _⟩ := h.mem_below_iff.mp hstep
      rw [edgesFrom_eq hbefore, mem_scopeEdges] at he
      have hle := (FileOutline.mem_edgesAt he.1).1
      grind
  subst hv
  obtain ⟨content, hcontent, hcontentId, hname⟩ := (h.isDefinition_iff symbol v).mp hdef
  cases (mem_nodesFrom_iff hbefore).mp hcontent with
  | inl hcontent =>
    rw [definedName_of_empty hbefore hcontent] at hname
    simp at hname
  | inr hcontent =>
    have hle := (FileOutline.id_mem_nodesAt hcontent).1
    grind

theorem found_last_iff (h : Indexed (before ++ [last]) state)
    (hbefore : ∀ outline ∈ before, outline.items = [])
    (hscoped : ∀ item ∈ last.items, Outline.ScopedAll item.shown) (symbol : Text)
    : (∃ v, Dfs.Reaches state.finish.below (before.length + 1) v
        ∧ state.finish.isDefinition symbol v = true)
        ↔
      symbol ∈ last.shownNames := by
  rw [← FileOutline.exists_reaches_iff hscoped (before.length + 1)]
  constructor
  . rintro ⟨v, hreach, hdef⟩
    obtain ⟨content, hcontent, rfl, hname⟩ := (h.isDefinition_iff symbol v).mp hdef
    have hlast : content ∈ last.nodesAt (before.length + 1) := by
      refine ((mem_nodesFrom_iff hbefore).mp hcontent).resolve_left fun hcontent => ?_
      rw [definedName_of_empty hbefore hcontent] at hname
      simp at hname
    refine ⟨content, hlast, hname, Relation.ReflTransGen.mono ?_ _ _ hreach⟩
    intro u v hstep
    obtain ⟨_, e, he, hends⟩ := h.mem_below_iff.mp hstep
    rw [edgesFrom_eq hbefore] at he
    exact ⟨e, he, hends⟩
  . rintro ⟨content, hcontent, hname, hreach⟩
    have hboth : ∀ id,
        Reaches (scopeEdges (last.edgesAt (before.length + 1))) (before.length + 1) id →
        Dfs.Reaches state.finish.below (before.length + 1) id
          ∧ ∃ content ∈ last.nodesAt (before.length + 1), content.id = id := by
      intro id hreach
      induction hreach with
      | refl => exact ⟨.refl, last.rootNode _, List.mem_cons_self, rfl⟩
      | tail _ hstep ih =>
        obtain ⟨hreach, content, hcontent, hid⟩ := ih
        obtain ⟨e, he, hsource, rfl⟩ := hstep
        have hnext : e.target ∈ state.finish.below content.id := by
          rw [h.mem_below_iff, edgesFrom_eq hbefore]
          exact ⟨⟨content, (mem_nodesFrom_iff hbefore).mpr (Or.inr hcontent), rfl⟩, e, he,
            by rw [hid, hsource], rfl⟩
        rw [hid] at hnext
        refine ⟨hreach.tail hnext, ?_⟩
        exact List.mem_map.mp (FileOutline.target_mem_nodesAt (mem_scopeEdges.mp he).1)
    refine ⟨content.id, (hboth _ hreach).1, ?_⟩
    rw [h.isDefinition_iff]
    exact ⟨content, (mem_nodesFrom_iff hbefore).mpr (Or.inr hcontent), rfl, hname⟩

end Indexed

/-! ## The search over the file map -/

namespace IndexState

variable {state : IndexState} {symbol : Text}

theorem search_of_gotoDefinition {fuel : Nat} {entries : List (Text × NodeId)} {rel : Text}
    (h : state.gotoDefinition fuel symbol entries = some (some rel))
    : ∃ id, (rel, id) ∈ entries ∧ Dfs.search (state.isDefinition symbol) state.below fuel [id] []
        = some true := by
  induction entries with
  | nil => simp [gotoDefinition] at h
  | cons entry rest ih =>
    obtain ⟨file, fid⟩ := entry
    rw [gotoDefinition] at h
    split at h
    . simp at h
    . next hsearch =>
      rw [Option.some.injEq, Option.some.injEq] at h
      exact ⟨fid, by rw [h]; exact List.mem_cons_self, hsearch⟩
    . obtain ⟨id, hmem, hsearch⟩ := ih h
      exact ⟨id, List.mem_cons_of_mem _ hmem, hsearch⟩

theorem gotoDefinition_of_search {fuel : Nat} {entries : List (Text × NodeId)}
    (hsearch : ∀ id, ∃ found, Dfs.search (state.isDefinition symbol) state.below fuel [id] []
      = some found)
    (hfound : ∃ entry ∈ entries,
      Dfs.search (state.isDefinition symbol) state.below fuel [entry.2] [] = some true)
    : ∃ rel, state.gotoDefinition fuel symbol entries = some (some rel) := by
  induction entries with
  | nil => simp at hfound
  | cons entry rest ih =>
    obtain ⟨file, fid⟩ := entry
    obtain ⟨found, hfirst⟩ := hsearch fid
    simp only [gotoDefinition, hfirst]
    cases found with
    | true => exact ⟨file, rfl⟩
    | false =>
      apply ih
      obtain ⟨entry, hentry, htrue⟩ := hfound
      cases List.mem_cons.mp hentry with
      | inl heq =>
        rw [heq, hfirst] at htrue
        simp at htrue
      | inr hentry => exact ⟨entry, hentry, htrue⟩

end IndexState

theorem Indexed.search_exact {outlines : List FileOutline} {state : IndexLoop}
    (h : Indexed outlines state) (symbol : Text)
    : ∃ bound, ∀ id, ∃ found,
        (found = true
          ↔ ∃ v, Dfs.Reaches state.finish.below id v ∧ state.finish.isDefinition symbol v = true)
          ∧ ∀ fuel, bound ≤ fuel →
            Dfs.search (state.finish.isDefinition symbol) state.finish.below fuel [id] []
              = some found := by
  have hsources : ∀ id, state.finish.below id ≠ [] →
      id ∈ (edgesFrom 1 outlines).map Edge.source := by
    intro id hne
    obtain ⟨target, htarget⟩ := List.exists_mem_of_ne_nil _ hne
    obtain ⟨_, e, he, hsource, _⟩ := h.mem_below_iff.mp htarget
    exact List.mem_map.mpr ⟨e, (mem_scopeEdges.mp he).1, hsource⟩
  exact Dfs.search_exact hsources

/-! ## The definition is found -/

section

variable {parse : Text → Option Cst → Cst} {files : List FileRead} {before : List (Text × Cst)}
  {last : Text × Cst}

theorem get?_fileMap (hparsed : ((parsedFiles parse files).map Prod.fst).Nodup)
    {rel : Text} {id : NodeId}
    : (IndexLoop.indexFiles parse files).fileMap.get? rel = some id
        ↔
      ∃ front tree back, parsedFiles parse files = front ++ (rel, tree) :: back
        ∧ id = front.length + 1 := by
  rw [indexFiles_eq]
  exact get?_fileMap_indexTrees hparsed

structure Quiet (parse : Text → Option Cst → Cst) (files : List FileRead)
    (before : List (Text × Cst)) (last : Text × Cst) : Prop where
  parsed : parsedFiles parse files = before ++ [last]
  nodup : ((before ++ [last]).map Prod.fst).Nodup
  empty : ∀ outline ∈ before.map fun t => GraphExtractor.fileOutline t.2, outline.items = []

namespace Quiet

theorem indexed (h : Quiet parse files before last)
    : Indexed ((before.map fun t => GraphExtractor.fileOutline t.2)
        ++ [GraphExtractor.fileOutline last.2])
        (IndexLoop.indexFiles parse files) := by
  have hindexed := indexed_indexTrees (before ++ [last])
  rwa [← h.parsed, ← indexFiles_eq, h.parsed, List.map_append] at hindexed

theorem mem_entries (h : Quiet parse files before last) {entries : List (Text × NodeId)}
    (hentries : entries ~ (IndexLoop.indexFiles parse files).finish.fileMap.toList)
    {rel : Text} {id : NodeId}
    : (rel, id) ∈ entries ↔ (rel, id) = (last.1, before.length + 1) ∨ (rel, id) ∈ entries
        ∧ id ≤ before.length := by
  have hget : (rel, id) ∈ entries
      ↔ ∃ front tree back, before ++ [last] = front ++ (rel, tree) :: back
      ∧ id = front.length + 1 := by
    rw [hentries.mem_iff, Dict.mem_toList_iff, ← h.parsed]
    exact get?_fileMap (h.parsed ▸ h.nodup)
  constructor
  . intro hmem
    obtain ⟨front, tree, back, hsplit, hid⟩ := hget.mp hmem
    rcases List.eq_nil_or_concat back with rfl | ⟨back, t, rfl⟩
    . obtain ⟨rfl, heq⟩ := List.append_inj' hsplit rfl
      left
      rw [List.singleton_inj.mp heq, hid]
    . right
      refine ⟨hmem, ?_⟩
      have hlength := congrArg List.length hsplit
      simp only [List.length_append, List.length_cons, List.length_nil, List.concat_eq_append]
        at hlength
      grind
  . rintro (heq | ⟨hmem, _⟩)
    . rw [Prod.mk.injEq] at heq
      exact hget.mpr ⟨before, last.2, [], by rw [heq.1], heq.2⟩
    . exact hmem

theorem found_iff (h : Quiet parse files before last) (symbol : Text)
    : (∃ v, Dfs.Reaches (IndexLoop.indexFiles parse files).finish.below (before.length + 1) v
          ∧ (IndexLoop.indexFiles parse files).finish.isDefinition symbol v = true)
        ↔
      symbol ∈ (GraphExtractor.fileOutline last.2).shownNames := by
  have hfound := h.indexed.found_last_iff h.empty (GraphExtractor.scopedAll_shown last.2) symbol
  rwa [List.length_map] at hfound

theorem sound (h : Quiet parse files before last) {entries : List (Text × NodeId)} {symbol : Text}
    {fuel : Nat} {rel : Text}
    (hentries : entries ~ (IndexLoop.indexFiles parse files).finish.fileMap.toList)
    (hgoto : (IndexLoop.indexFiles parse files).finish.gotoDefinition fuel symbol entries
      = some (some rel))
    : rel = last.1 ∧ symbol ∈ (GraphExtractor.fileOutline last.2).shownNames := by
  obtain ⟨id, hmem, hsearch⟩ := IndexState.search_of_gotoDefinition hgoto
  have hfound := (Dfs.search_spec .init hsearch).mp rfl
  rcases (h.mem_entries hentries).mp hmem with heq | ⟨_, hid⟩
  . rw [Prod.mk.injEq] at heq
    refine ⟨heq.1, ?_⟩
    rw [heq.2] at hfound
    exact (h.found_iff symbol).mp hfound
  . exact absurd hfound (h.indexed.not_found_before h.empty (by rwa [List.length_map]) symbol)

theorem complete (h : Quiet parse files before last) {entries : List (Text × NodeId)}
    {symbol : Text} (hentries : entries ~ (IndexLoop.indexFiles parse files).finish.fileMap.toList)
    (hsymbol : symbol ∈ (GraphExtractor.fileOutline last.2).shownNames)
    : ∃ bound, ∀ fuel, bound ≤ fuel →
        (IndexLoop.indexFiles parse files).finish.gotoDefinition fuel symbol entries
        = some (some last.1) := by
  obtain ⟨bound, hbound⟩ := h.indexed.search_exact symbol
  refine ⟨bound, ?_⟩
  intro fuel hfuel
  have hlast : (last.1, before.length + 1) ∈ entries := (h.mem_entries hentries).mpr (Or.inl rfl)
  obtain ⟨found, hiff, hrun⟩ := hbound (before.length + 1)
  have htrue : found = true := hiff.mpr ((h.found_iff symbol).mpr hsymbol)
  subst htrue
  have hsearch : ∀ id,
      ∃ found, Dfs.search ((IndexLoop.indexFiles parse files).finish.isDefinition symbol)
      (IndexLoop.indexFiles parse files).finish.below fuel [id] [] = some found := by
    intro id
    obtain ⟨found, _, hrun⟩ := hbound id
    exact ⟨found, hrun fuel hfuel⟩
  obtain ⟨rel, hrel⟩ := IndexState.gotoDefinition_of_search hsearch ⟨_, hlast, hrun fuel hfuel⟩
  rw [hrel, (h.sound hentries hrel).1]

end Quiet

variable (parse) in
theorem nodup_parsedFiles (hrels : (files.map FileRead.rel).Nodup)
    : ((parsedFiles parse files).map Prod.fst).Nodup := by
  refine List.Nodup.sublist ?_ hrels
  clear hrels
  unfold parsedFiles
  induction files with
  | nil => simp
  | cons file rest ih =>
    cases hcontent : file.content with
    | none =>
      rw [List.filterMap_cons_none (by rw [hcontent]; rfl)]
      exact ih.cons _
    | some content =>
      rw [List.filterMap_cons_some (by rw [hcontent]; rfl)]
      exact ih.cons_cons _

theorem named_extract (trees : List (Text × Cst)) (tree : Cst) {nodes : List GraphNode}
    {edges : List Edge}
    (h : ((indexTrees trees).extractor.extract tree (trees.length + 1)).1 = (nodes, edges))
    : ∃ symbols : SymbolTable,
        symbols = ((indexTrees trees).extractor.extract tree (trees.length + 1)).2.symbols
        ∧ nodes.map (·.named symbols)
          = ((GraphExtractor.fileOutline tree).nodesAt
              (1 + sizes (trees.map fun t => GraphExtractor.fileOutline t.2))).map
              some := by
  have hextract := (indexTrees trees).extractor.extract_extracts tree (trees.length + 1)
  have hnodes := hextract.nodes
  rw [h, (indexed_indexTrees trees).nextId] at hnodes
  exact ⟨_, rfl, hnodes⟩

theorem not_matches_of_empty {tree : Cst} (hitems : (GraphExtractor.fileOutline tree).items = [])
    {symbols : SymbolTable} {nodes : List GraphNode} {b : NodeId}
    (hnodes : nodes.map (·.named symbols) = ((GraphExtractor.fileOutline tree).nodesAt b).map some)
    {node : GraphNode} (hnode : node ∈ nodes) (symbols' : SymbolTable) (symbol : Text)
    : nodeMatchesSymbol node symbols' symbol = false := by
  have hmem : node.named symbols ∈ ((GraphExtractor.fileOutline tree).nodesAt b).map some :=
    hnodes ▸ List.mem_map_of_mem hnode
  rw [FileOutline.nodesAt, hitems] at hmem
  obtain ⟨kind, hkind, heq⟩ := Option.map_eq_some_iff.mp (List.mem_singleton.mp hmem)
  have hfile : kind = .sourceFile := congrArg NamedNode.kind heq
  rw [hfile] at hkind
  rw [nodeMatchesSymbol, NodeKind.eq_sourceFile_of_resolve hkind]

theorem finish_symbols (hsplit : parsedFiles parse files = before ++ [last])
    : (IndexLoop.indexFiles parse files).finish.symbols
        = ((indexTrees before).extractor.extract last.2 (before.length + 1)).2.symbols := by
  rw [indexFiles_eq, hsplit, indexTrees_concat]
  change ((indexTrees before).extractor.extract last.2 ((indexTrees before).fileId + 1)).2.symbols
    = _
  rw [(indexed_indexTrees before).fileId, List.length_map]

theorem exists_node_of_declared (hsplit : parsedFiles parse files = before ++ [last]) {name : Text}
    (hname : name ∈ (GraphExtractor.fileOutline last.2).shownNames
      ∨ name ∈ (GraphExtractor.fileOutline last.2).hiddenNames)
    : ∃ node ∈ ((indexTrees before).extractor.extract last.2 (before.length + 1)).1.1,
        nodeMatchesSymbol node (IndexLoop.indexFiles parse files).finish.symbols name = true := by
  have hnodes := ((indexTrees before).extractor.extract_extracts last.2 (before.length + 1)).nodes
  obtain ⟨content, hcontent, hkind⟩ :=
    (FileOutline.exists_mem_nodesAt_iff (indexTrees before).extractor.nextId _ name).mpr hname
  obtain ⟨node, hnode, hnamed⟩ :=
    List.mem_map.mp (hnodes ▸ List.mem_map_of_mem (f := some) hcontent)
  refine ⟨node, hnode, (nodeMatchesSymbol_iff ?_ name).mpr hkind⟩
  rw [finish_symbols hsplit]
  exact hnamed

theorem answers_of_parsedFiles_eq_nil (hnil : parsedFiles parse files = [])
    : AnswersWithDefiningFile parse files (IndexLoop.indexFiles parse files).finish := by
  have hmap : ∀ rel, (IndexLoop.indexFiles parse files).fileMap.get? rel = none := by
    intro rel
    rw [indexFiles_eq, hnil]
    exact Dict.get?_empty rel
  refine ⟨?_, ?_, ?_⟩
  . intro rel id hget
    change (IndexLoop.indexFiles parse files).fileMap.get? rel = some id at hget
    simp [hmap] at hget
  . intro entries symbol fuel rel hentries hgoto
    obtain ⟨id, hmem, _⟩ := IndexState.search_of_gotoDefinition hgoto
    rw [hentries.mem_iff, Dict.mem_toList_iff] at hmem
    change (IndexLoop.indexFiles parse files).fileMap.get? rel = some id at hmem
    simp [hmap] at hmem
  . intro entries symbol rel nodes edges _ hextracted
    obtain ⟨_, _, _, hsplit, _⟩ := extracted_iff.mp hextracted
    simp [hnil] at hsplit

theorem Quiet.shown_of_matches (h : Quiet parse files before last)
    (hhidden : (GraphExtractor.fileOutline last.2).hiddenNames
      ⊆ (GraphExtractor.fileOutline last.2).shownNames)
    {rel symbol : Text} {nodes : List GraphNode} {edges : List Edge}
    (hextracted : Extracted parse files rel nodes edges)
    (hmatch : ∃ node ∈ nodes,
      nodeMatchesSymbol node (IndexLoop.indexFiles parse files).finish.symbols symbol = true)
    : symbol ∈ (GraphExtractor.fileOutline last.2).shownNames := by
  obtain ⟨node, hnode, hmatch⟩ := hmatch
  obtain ⟨front, tree, back, hfiles, hresult⟩ := extracted_iff.mp hextracted
  obtain ⟨symbols, hsymbols, hnodes⟩ := named_extract front tree hresult
  rw [h.parsed] at hfiles
  rcases List.eq_nil_or_concat back with rfl | ⟨back, t, rfl⟩
  . obtain ⟨rfl, heq⟩ := List.append_inj' hfiles rfl
    rw [List.singleton_inj] at heq
    subst heq
    have hmem : node.named symbols ∈ ((GraphExtractor.fileOutline tree).nodesAt _).map some :=
      hnodes ▸ List.mem_map_of_mem hnode
    obtain ⟨content, hcontent, hnamed⟩ := List.mem_map.mp hmem
    have hfinal : node.named (IndexLoop.indexFiles parse files).finish.symbols = some content := by
      rw [finish_symbols h.parsed, ← hsymbols, hnamed]
    have hname := (nodeMatchesSymbol_iff hfinal symbol).mp hmatch
    have hnames := (FileOutline.exists_mem_nodesAt_iff _ _ symbol).mp ⟨content, hcontent, hname⟩
    exact hnames.elim id fun hname => hhidden hname
  . rw [List.concat_eq_append, ← List.cons_append, ← List.append_assoc] at hfiles
    obtain ⟨rfl, _⟩ := List.append_inj' hfiles rfl
    have hitems := h.empty (GraphExtractor.fileOutline tree) (by simp)
    rw [not_matches_of_empty hitems hnodes hnode] at hmatch
    exact absurd hmatch (by simp)

theorem answers_of_onlyLastDeclares (hrels : (files.map FileRead.rel).Nodup)
    (h : OnlyLastDeclares parse files)
    : AnswersWithDefiningFile parse files (IndexLoop.indexFiles parse files).finish := by
  have hparsed := nodup_parsedFiles parse hrels
  rcases List.eq_nil_or_concat (parsedFiles parse files) with hnil | ⟨before, last, hsplit⟩
  . exact answers_of_parsedFiles_eq_nil hnil
  . rw [List.concat_eq_append] at hsplit
    have houtlines : fileOutlines parse files
        = (before.map fun t => GraphExtractor.fileOutline t.2)
          ++ [GraphExtractor.fileOutline last.2] := by
      rw [fileOutlines_eq, hsplit, List.map_append]
      rfl
    obtain ⟨hempty, hhidden⟩ := h _ _ houtlines
    have hquiet : Quiet parse files before last := ⟨hsplit, hsplit ▸ hparsed, hempty⟩
    have hfront : ∀ front t back, before ++ [last] = front ++ t :: back →
        ∀ outline ∈ front.map fun t => GraphExtractor.fileOutline t.2, outline.items = [] := by
      intro front t back hsplit' outline houtline
      apply hempty
      have hfiles' : front <+: before := by
        have hlength := congrArg List.length hsplit'
        refine List.prefix_of_prefix_length_le ⟨t :: back, hsplit'.symm⟩ ⟨[last], rfl⟩ ?_
        simp only [List.length_append, List.length_cons, List.length_nil] at hlength
        omega
      exact List.map_subset _ hfiles'.subset houtline
    refine ⟨?_, ?_, ?_⟩
    . intro rel id hget
      change (IndexLoop.indexFiles parse files).fileMap.get? rel = some id at hget
      rw [get?_fileMap hparsed] at hget
      obtain ⟨front, tree, back, hfiles, rfl⟩ := hget
      have hsizes := sizes_of_empty (hfront front (rel, tree) back (hsplit ▸ hfiles))
      obtain ⟨root, hroot, hid, hkind⟩ :=
        (indexTrees front).extractor.exists_root tree (front.length + 1)
      refine ⟨_, _, extracted_iff.mpr ⟨front, tree, back, hfiles, rfl⟩, root, hroot, hkind, ?_⟩
      rw [hid, (indexed_indexTrees front).nextId, hsizes, List.length_map, Nat.add_comm]
    . intro entries symbol fuel rel hentries hgoto
      obtain ⟨rfl, hshown⟩ := hquiet.sound hentries hgoto
      obtain ⟨node, hnode, hmatch⟩ := exists_node_of_declared hsplit (Or.inl hshown)
      exact ⟨_, _, extracted_iff.mpr ⟨before, last.2, [], hsplit, rfl⟩, node, hnode, hmatch⟩
    . intro entries symbol rel nodes edges hentries hextracted hmatch
      have hshown := hquiet.shown_of_matches hhidden hextracted hmatch
      obtain ⟨bound, hbound⟩ := hquiet.complete hentries hshown
      exact ⟨bound, last.1, hbound⟩

theorem onlyLastDeclares_of_answers (hrels : (files.map FileRead.rel).Nodup)
    (h : AnswersWithDefiningFile parse files (IndexLoop.indexFiles parse files).finish)
    : OnlyLastDeclares parse files := by
  intro outlines lastOutline houtlines
  rw [fileOutlines_eq] at houtlines
  obtain ⟨before, rest, hsplit, rfl, hrest⟩ := List.map_eq_append_iff.mp houtlines
  obtain ⟨last, rfl, rfl⟩ := List.map_eq_singleton_iff.mp hrest
  have hparsed := nodup_parsedFiles parse hrels
  have hlast : (IndexLoop.indexFiles parse files).fileMap.get? last.1 = some (before.length + 1) :=
    (get?_fileMap hparsed).mpr ⟨before, last.2, [], hsplit, rfl⟩
  have hempty : ∀ outline ∈ before.map fun t => GraphExtractor.fileOutline t.2,
      outline.items = [] := by
    obtain ⟨nodes, edges, hextracted, node, hnode, _, hid⟩ := h.ids _ _ hlast
    obtain ⟨front, tree, back, hfiles, hresult⟩ := extracted_iff.mp hextracted
    have hfront := (get?_fileMap hparsed).mpr ⟨front, tree, back, hfiles, rfl⟩
    rw [hlast, Option.some.injEq, Nat.add_right_cancel_iff] at hfront
    obtain ⟨rfl, _⟩ := List.append_inj (hsplit.symm.trans hfiles) hfront
    apply empty_of_sizes
    have hextract := (indexTrees before).extractor.extract_extracts tree (before.length + 1)
    have hmem : node.id ∈ ((indexTrees before).extractor.extract tree (before.length + 1)).1.1.map
        GraphNode.id := by
      rw [hresult]
      exact List.mem_map_of_mem hnode
    rw [hextract.map_id, (indexed_indexTrees before).nextId] at hmem
    obtain ⟨content, hcontent, hcontentId⟩ := List.mem_map.mp hmem
    have hle := (FileOutline.id_mem_nodesAt hcontent).1
    rw [List.length_map]
    grind
  refine ⟨hempty, ?_⟩
  intro name hname
  have hquiet : Quiet parse files before last := ⟨hsplit, hsplit ▸ hparsed, hempty⟩
  obtain ⟨node, hnode, hmatch⟩ := exists_node_of_declared hsplit (Or.inr hname)
  obtain ⟨bound, rel, hgoto⟩ := h.complete _ name last.1 _ _ (.refl _)
    (extracted_iff.mpr ⟨before, last.2, [], hsplit, rfl⟩) ⟨node, hnode, hmatch⟩
  exact (hquiet.sound (.refl _) (hgoto bound (Nat.le_refl _))).2

end

theorem nodup_sourceFiles (project : PathBuf) (dir : Directory)
    : ((sourceFiles project dir).map FileRead.rel).Nodup := by
  have hinjective : Function.Injective fun name : FileName =>
    project.relTo (project.child [name]) := by
    intro name name' heq
    have hpath :=
      PathBuf.relTo_injective (PathBuf.under_child project [name])
        (PathBuf.under_child project [name']) heq
    simpa [PathBuf.child] using hpath
  have hsplit : (FileRead.rel ∘ fun entry : FileName × Option Text =>
        ⟨project.relTo (project.child [entry.1]), entry.2⟩)
      = (fun name => project.relTo (project.child [name])) ∘ Prod.fst :=
    rfl
  rw [sourceFiles, List.map_map, hsplit, ← List.map_map]
  exact (dir.nodup.sublist (List.filter_sublist.map Prod.fst)).map hinjective

/--
The search answers with the defining file, and each entry of the file map is the id of the node of
its file, exactly if only the last file that can be read declares anything and its modules without a
name declare nothing that is not declared elsewhere in it.
-/
theorem answersWithDefiningFile_iff (parse : Text → Option Cst → Cst) (project : PathBuf)
    (dir : Directory)
    : AnswersWithDefiningFile parse (sourceFiles project dir) (buildIndex parse project dir)
        ↔
      OnlyLastDeclares parse (sourceFiles project dir) :=
  ⟨onlyLastDeclares_of_answers (nodup_sourceFiles project dir),
    answers_of_onlyLastDeclares (nodup_sourceFiles project dir)⟩

def twoPackages : Directory where
  entries := [
    (⟨"a.sv".toList, by decide, by decide, by decide, by decide⟩,
      some "package p; endpackage".toList),
    (⟨"b.sv".toList, by decide, by decide, by decide, by decide⟩,
      some "package q; endpackage".toList)]
  nodup := by decide

-- The entry of `b.sv` is the id of the package of `a.sv`, and asking for that package can give
-- `b.sv`
theorem not_answersWithDefiningFile_twoPackages
    : ¬AnswersWithDefiningFile IndexedProject.parsePackage
        (sourceFiles ⟨false, [.curDir]⟩ twoPackages)
          (buildIndex IndexedProject.parsePackage ⟨false, [.curDir]⟩ twoPackages)
        ∧ ∃ entries, entries
          ~ (buildIndex IndexedProject.parsePackage ⟨false, [.curDir]⟩ twoPackages).fileMap.toList
          ∧ (buildIndex IndexedProject.parsePackage ⟨false, [.curDir]⟩ twoPackages).gotoDefinition 4
              "p".toList entries
            = some (some "b.sv".toList) := by
  refine ⟨?_, [("b.sv".toList, 2), ("a.sv".toList, 1)], by decide, by decide +kernel⟩
  intro h
  have honly := onlyLastDeclares_of_answers (nodup_sourceFiles ⟨false, [.curDir]⟩ twoPackages) h
  have hitems := (honly [_] _ rfl).1 _ List.mem_cons_self
  exact absurd (congrArg List.length hitems) (by decide)

end Lsp
end HdlGraph
