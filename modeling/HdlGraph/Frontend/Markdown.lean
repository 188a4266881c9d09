import HdlGraph.Core.Helpers
import HdlGraph.Frontend.Impact
import HdlGraph.Library.Path
import HdlGraph.Library.Writes
import HdlGraph.Project.Walks

/-!
This module contains the export to Markdown with a page for each module and class. The pages are
written under the names, one after the other, behind an index of them.
-/

namespace HdlGraph

open scoped List

namespace MarkdownExporter

/-! ## The pages -/

section Pages

variable (g : InMemoryGraph) (symbols : SymbolTable)

def childKinds (nodeId : NodeId) : List (NodeKind InternedString) :=
  (g.getOutgoing nodeId).filterMap fun e => (g.getNode e.target).map GraphNode.kind

def itemList (heading : Text) (items : List Text) : Text :=
  if items.isEmpty then []
  else
    println ("**".toList ++ heading ++ "** (".toList ++ (Nat.repr items.length).toList
      ++ "):".toList)
      ++ items.flatMap println ++ println []

def renderModuleDetail (nodeId : NodeId) : Text :=
  let kinds := childKinds g nodeId
  let ports := kinds.filterMap fun
    | .modulePort name direction =>
      some ("  - `".toList ++ nameOr symbols name ++ "` (".toList ++ direction.name ++ ")".toList)
    | _ => none
  let signals := kinds.filterMap fun
    | .signalDecl name kind =>
      some ("  - `".toList ++ nameOr symbols name ++ "` (".toList ++ kind.name ++ ")".toList)
    | _ => none
  let instances := kinds.filterMap fun
    | .moduleInstance name moduleType =>
      some ("  - `".toList ++ nameOr symbols name ++ "` : `".toList ++ nameOr symbols moduleType
        ++ "`".toList)
    | _ => none
  let functions := kinds.filterMap fun
    | .function name isTask =>
      some ("  - ".toList ++ (if isTask then "task".toList else "function".toList) ++ " `".toList
        ++ nameOr symbols name ++ "`".toList)
    | _ => none
  let alwaysBlocks := kinds.countP fun
    | .alwaysBlock _ => true
    | _ => false
  let assignments := kinds.countP fun
    | .assignment => true
    | _ => false
  itemList "Ports".toList ports ++ itemList "Signals".toList signals
    ++ itemList "Instances".toList instances
    ++ itemList "Functions/Tasks".toList functions
    ++ if alwaysBlocks > 0 ∨ assignments > 0 then
        "**Always blocks:** ".toList ++ (Nat.repr alwaysBlocks).toList
          ++ ", **Assignments:** ".toList
          ++ (Nat.repr assignments).toList ++ "\n\n".toList
      else
        []

def renderClassDetail (nodeId : NodeId) : Text :=
  let kinds := childKinds g nodeId
  let methods := kinds.filterMap fun
    | .method name isVirtual =>
      some ("  - ".toList ++ (if isVirtual then "virtual ".toList else []) ++ nameOr symbols name
        ++ "()".toList)
    | _ => none
  let properties := kinds.filterMap fun
    | .property name => some ("  - `".toList ++ nameOr symbols name ++ "`".toList)
    | _ => none
  itemList "Properties".toList properties ++ itemList "Methods".toList methods

def modulePage (node : GraphNode) : Option (Text × Text) :=
  match node.kind with
  | .module name =>
    let n := nameOr symbols name
    some (n, "# Module: ".toList ++ n ++ "\n\n".toList ++ renderModuleDetail g symbols node.id)
  | _ => none

def classPage (node : GraphNode) : Option (Text × Text) :=
  match node.kind with
  | .class name parent =>
    let n := nameOr symbols name
    let p := (parent.bind symbols.resolve).getD []
    let heading := "# Class: ".toList ++ n ++ if p = [] then [] else " extends ".toList ++ p
    some (n, heading ++ "\n\n".toList ++ renderClassDetail g symbols node.id)
  | _ => none

def linkTarget (n : Text) : Text := "./".toList ++ n ++ ".md".toList

def linkLine (n : Text) : Text := "- [".toList ++ n ++ "](".toList ++ linkTarget n ++ ")\n".toList

def indexPage (fileMap : List (Text × NodeId)) (nodes : List GraphNode) : Text :=
  "# HDL Code Graph Index\n\n".toList
    ++ "## Modules\n\n".toList ++ (nodes.filterMap (modulePage g symbols)).flatMap
    (fun page => linkLine page.1)
    ++ "\n## Classes\n\n".toList ++ (nodes.filterMap (classPage g symbols)).flatMap
      (fun page => linkLine page.1)
    ++ "\n## Statistics\n\n".toList
    ++ "- Files: ".toList ++ (Nat.repr fileMap.length).toList ++ "\n".toList
    ++ "- Nodes: ".toList ++ (Nat.repr g.nodeCount).toList ++ "\n".toList
    ++ "- Edges: ".toList ++ (Nat.repr g.edgeCount).toList ++ "\n".toList

def exportPerModule (fileMap : List (Text × NodeId)) (nodes : List GraphNode) (output : PathBuf)
    : List (PathBuf × Text) :=
  (output.join (.ofText "index.md".toList), indexPage g symbols fileMap nodes)
    :: ((nodes.filterMap (modulePage g symbols) ++ nodes.filterMap (classPage g symbols)).map
      fun page => (output.join (.ofText (page.1 ++ ".md".toList)), page.2))

end Pages

/-! ## The files -/

section Files

variable (g : InMemoryGraph) (symbols : SymbolTable) (fileMap : List (Text × NodeId))
  (output : PathBuf) (cwd : Location)

def detailPage (node : GraphNode) : Option (Text × Text) :=
  (modulePage g symbols node).or (classPage g symbols node)

def written (nodes : List GraphNode) (disk : Location → Option Text) : Location → Option Text :=
  Writes.writeAll disk ((exportPerModule g symbols fileMap nodes output).map fun w =>
    (w.1.locate cwd, w.2))

def indexFile : Location := (output.join (.ofText "index.md".toList)).locate cwd

def pageFile (n : Text) : Location := (output.join (.ofText (n ++ ".md".toList))).locate cwd

-- Links are relative to the directory of the index
def linkedFile (n : Text) : Location := (output.join (.ofText (linkTarget n))).locate cwd

structure KeepsPages (nodes : List GraphNode) (disk : Location → Option Text)
    (fileOf : GraphNode → Location) : Prop where
  page : ∀ node ∈ nodes, ∀ page ∈ detailPage g symbols node,
    written g symbols fileMap output cwd nodes disk (fileOf node) = some page.2
  apart : ∀ node ∈ nodes, ∀ other ∈ nodes, (detailPage g symbols node).isSome →
    (detailPage g symbols other).isSome →
    fileOf node = fileOf other → node = other
  index : written g symbols fileMap output cwd nodes disk (indexFile output cwd)
    = some (indexPage g symbols fileMap nodes)
  link : ∀ node ∈ nodes, ∀ page ∈ detailPage g symbols node,
    linkedFile output cwd page.1 = fileOf node

/--
Each module and each class has its page in a file of its own, where the link of the index leads.
-/
def OverwritesNothing : Prop :=
  ∀ nodes, nodes ~ g.allNodes →
    ∀ disk, ∃ fileOf, KeepsPages g symbols fileMap output cwd nodes disk fileOf

/--
The names of the modules and classes make different paths below the output directory, none of them
the index.
-/
structure PathsApart : Prop where
  apart : ∀ node ∈ g.allNodes, ∀ other ∈ g.allNodes, ∀ page ∈ detailPage g symbols node,
    ∀ otherPage ∈ detailPage g symbols other,
      pageFile output cwd page.1 = pageFile output cwd otherPage.1 → node = other
  index : ∀ node ∈ g.allNodes, ∀ page ∈ detailPage g symbols node,
    pageFile output cwd page.1 ≠ indexFile output cwd
  below : ∀ node ∈ g.allNodes, ∀ page ∈ detailPage g symbols node,
    pageFile output cwd page.1 = linkedFile output cwd page.1

end Files

/-! ## What is in the files -/

variable {g : InMemoryGraph} {symbols : SymbolTable} {fileMap : List (Text × NodeId)}
  {output : PathBuf} {cwd : Location}
variable {nodes : List GraphNode} {node : GraphNode} {page : Text × Text}
  {disk : Location → Option Text}

theorem modulePage_of_classPage (h : classPage g symbols node = some page)
    : modulePage g symbols node = none := by
  rw [classPage] at h
  split at h
  . next name parent hkind => rw [modulePage, hkind]
  . simp at h

theorem mem_detailPage_iff
    : page ∈ detailPage g symbols node ↔ modulePage g symbols node = some page
        ∨ classPage g symbols node = some page := by
  rw [detailPage, Option.mem_def, Option.or_eq_some_iff]
  exact or_congr_right ⟨And.right, fun h => ⟨modulePage_of_classPage h, h⟩⟩

theorem mem_pages_iff
    : page ∈ nodes.filterMap (modulePage g symbols) ++ nodes.filterMap (classPage g symbols)
        ↔ ∃ node ∈ nodes, page ∈ detailPage g symbols node := by
  rw [List.mem_append, List.mem_filterMap, List.mem_filterMap]
  constructor
  . rintro (⟨node, hnode, hpage⟩ | ⟨node, hnode, hpage⟩)
    . exact ⟨node, hnode, mem_detailPage_iff.mpr (Or.inl hpage)⟩
    . exact ⟨node, hnode, mem_detailPage_iff.mpr (Or.inr hpage)⟩
  . rintro ⟨node, hnode, hpage⟩
    rcases mem_detailPage_iff.mp hpage with hpage | hpage
    . exact Or.inl ⟨node, hnode, hpage⟩
    . exact Or.inr ⟨node, hnode, hpage⟩

theorem page_ne_indexPage (h : page ∈ detailPage g symbols node)
    : page.2 ≠ indexPage g symbols fileMap nodes := by
  have hindex : (indexPage g symbols fileMap nodes)[2]? = some 'H' := rfl
  have hmodule : modulePage g symbols node = some page → page.2[2]? = some 'M' := by
    intro h
    rw [modulePage] at h
    split at h
    . cases h
      rfl
    . cases h
  have hclass : classPage g symbols node = some page → page.2[2]? = some 'C' := by
    intro h
    rw [classPage] at h
    split at h
    . cases h
      rfl
    . cases h
  intro heq
  rw [← heq] at hindex
  rcases mem_detailPage_iff.mp h with h | h
  . have hthird := (hmodule h).symm.trans hindex
    exact absurd hthird (by decide)
  . have hthird := (hclass h).symm.trans hindex
    exact absurd hthird (by decide)

theorem mem_writes_iff {file : Location} {content : Text}
    : (file, content)
        ∈ (exportPerModule g symbols fileMap nodes output).map (fun w => (w.1.locate cwd, w.2))
        ↔ file = indexFile output cwd ∧ content = indexPage g symbols fileMap nodes
          ∨ ∃ node ∈ nodes, ∃ page ∈ detailPage g symbols node, file = pageFile output cwd page.1
            ∧ content = page.2 := by
  rw [exportPerModule, List.map_cons, List.map_map, List.mem_cons, List.mem_map]
  simp only [mem_pages_iff]
  constructor
  . rintro (heq | ⟨page, ⟨node, hnode, hpage⟩, heq⟩)
    . exact Or.inl ⟨congrArg Prod.fst heq, congrArg Prod.snd heq⟩
    . exact Or.inr ⟨node, hnode, page, hpage, (congrArg Prod.fst heq).symm,
        (congrArg Prod.snd heq).symm⟩
  . rintro (⟨rfl, rfl⟩ | ⟨node, hnode, page, hpage, rfl, rfl⟩)
    . exact Or.inl rfl
    . exact Or.inr ⟨page, ⟨node, hnode, hpage⟩, rfl⟩

/-! ## Where the links lead -/

theorem linkedFile_eq (n : Text)
    : linkedFile output cwd n
        = PathBuf.descend (output.locate cwd) (PathBuf.components (n ++ ".md".toList)) := by
  have habsolute : (PathBuf.ofText (linkTarget n)).absolute = false := rfl
  rw [linkedFile, PathBuf.locate_join, habsolute, PathBuf.descend_parts_ofText, linkTarget,
    List.append_assoc, PathBuf.components_curDir]
  rfl

theorem pageFile_eq (n : Text)
    : pageFile output cwd n
        = PathBuf.descend
          (if (PathBuf.ofText (n ++ ".md".toList)).absolute then [] else output.locate cwd)
            (PathBuf.components (n ++ ".md".toList)) := by
  rw [pageFile, PathBuf.locate_join, PathBuf.descend_parts_ofText]

-- An absolute name leads out of the output directory
theorem pageFile_suffix (n : Text) : pageFile output cwd n <:+ linkedFile output cwd n := by
  rw [pageFile_eq, linkedFile_eq]
  apply PathBuf.descend_suffix
  split
  . exact List.nil_suffix
  . exact List.suffix_rfl

/-! ## When nothing is overwritten -/

theorem keepsPages_of_pathsApart (h : PathsApart g symbols output cwd) (hnodes : nodes ~ g.allNodes)
    : KeepsPages g symbols fileMap output cwd nodes disk fun node =>
        (detailPage g symbols node).elim [] fun page => pageFile output cwd page.1 where
  page := by
    intro node hnode page hpage
    rw [Option.mem_def.mp hpage, Option.elim_some]
    apply Writes.writeAll_of_mem
    . exact mem_writes_iff.mpr (Or.inr ⟨node, hnode, page, hpage, rfl, rfl⟩)
    . intro content hcontent
      rcases mem_writes_iff.mp hcontent with ⟨hindex, _⟩ | ⟨other, hother, otherPage,
        hotherPage, hsame, rfl⟩
      . exact absurd hindex (h.index node (hnodes.mem_iff.mp hnode) page hpage)
      . obtain rfl :=
          h.apart node (hnodes.mem_iff.mp hnode) other (hnodes.mem_iff.mp hother) page
            hpage otherPage
          hotherPage hsame
        rw [Option.mem_unique hotherPage hpage]
  apart := by
    intro node hnode other hother hsome hsomeOther hsame
    obtain ⟨page, hpage⟩ := Option.isSome_iff_exists.mp hsome
    obtain ⟨otherPage, hotherPage⟩ := Option.isSome_iff_exists.mp hsomeOther
    rw [hpage, hotherPage] at hsame
    exact h.apart node (hnodes.mem_iff.mp hnode) other (hnodes.mem_iff.mp hother) page hpage
      otherPage hotherPage hsame
  index := by
    apply Writes.writeAll_of_mem
    . exact mem_writes_iff.mpr (Or.inl ⟨rfl, rfl⟩)
    . intro content hcontent
      rcases mem_writes_iff.mp hcontent with ⟨_, rfl⟩ | ⟨node, hnode, page, hpage, hsame, _⟩
      . rfl
      . exact absurd hsame.symm (h.index node (hnodes.mem_iff.mp hnode) page hpage)
  link := by
    intro node hnode page hpage
    rw [Option.mem_def.mp hpage]
    exact (h.below node (hnodes.mem_iff.mp hnode) page hpage).symm

theorem below_of_keepsPages {fileOf : GraphNode → Location}
    (h : KeepsPages g symbols fileMap output cwd g.allNodes (fun _ => none) fileOf)
    : ∀ node ∈ g.allNodes, ∀ page ∈ detailPage g symbols node,
        pageFile output cwd page.1 = linkedFile output cwd page.1 := by
  let s : Finset GraphNode :=
    (g.allNodes.filter fun node => (detailPage g symbols node).isSome).toFinset
  let name (node : GraphNode) : Text := (detailPage g symbols node).elim [] Prod.fst
  have hname : ∀ {node page}, page ∈ detailPage g symbols node → name node = page.1 := by
    intro node page hpage
    simp only [name, Option.mem_def.mp hpage, Option.elim_some]
  have hmem : ∀ {node}, node ∈ s
      ↔ node ∈ g.allNodes ∧ ∃ page, page ∈ detailPage g symbols node := by
    intro node
    rw [List.mem_toFinset, List.mem_filter, Option.isSome_iff_exists]
    rfl
  have hall : ∀ node ∈ s, pageFile output cwd (name node) = linkedFile output cwd (name node) := by
    apply Writes.eq_of_forall_exists List.length
    . intro node _
      exact (pageFile_suffix _).length_le
    . intro node _ hlength
      exact (pageFile_suffix _).eq_of_length hlength
    . intro node hnode other hother hsame
      obtain ⟨hnode, page, hpage⟩ := hmem.mp hnode
      obtain ⟨hother, otherPage, hotherPage⟩ := hmem.mp hother
      simp only [hname hpage, hname hotherPage] at hsame
      rw [h.link node hnode page hpage, h.link other hother otherPage hotherPage] at hsame
      exact h.apart node hnode other hother (Option.isSome_iff_exists.mpr ⟨page, hpage⟩)
        (Option.isSome_iff_exists.mpr ⟨otherPage, hotherPage⟩) hsame
    . intro node hnode
      obtain ⟨hnode, page, hpage⟩ := hmem.mp hnode
      have hpageWritten := h.page node hnode page hpage
      rw [← h.link node hnode page hpage, written] at hpageWritten
      rcases Writes.mem_of_writeAll hpageWritten with hnone | hwrite
      . simp at hnone
      . rcases mem_writes_iff.mp hwrite with ⟨_, hindex⟩ | ⟨other, hother, otherPage,
          hotherPage, hsame, _⟩
        . exact absurd hindex (page_ne_indexPage hpage)
        . refine ⟨other, hmem.mpr ⟨hother, otherPage, hotherPage⟩, ?_⟩
          rw [hname hpage, hname hotherPage, hsame]
  intro node hnode page hpage
  have hsame := hall node (hmem.mpr ⟨hnode, page, hpage⟩)
  rwa [hname hpage] at hsame

variable (g symbols fileMap output cwd)

/-- Nothing is overwritten if and only if the paths of the pages are apart. -/
theorem overwritesNothing_iff : OverwritesNothing g symbols fileMap output cwd
    ↔ PathsApart g symbols output cwd := by
  constructor
  . intro h
    obtain ⟨fileOf, hkeeps⟩ := h g.allNodes (.refl _) fun _ => none
    have hbelow := below_of_keepsPages hkeeps
    have hfile : ∀ node ∈ g.allNodes, ∀ page ∈ detailPage g symbols node,
        pageFile output cwd page.1 = fileOf node :=
      fun node hnode page hpage =>
        (hbelow node hnode page hpage).trans (hkeeps.link node hnode page hpage)
    refine ⟨?_, ?_, hbelow⟩
    . intro node hnode other hother page hpage otherPage hotherPage hsame
      rw [hfile node hnode page hpage, hfile other hother otherPage hotherPage] at hsame
      exact hkeeps.apart node hnode other hother (Option.isSome_iff_exists.mpr ⟨page, hpage⟩)
        (Option.isSome_iff_exists.mpr ⟨otherPage, hotherPage⟩) hsame
    . intro node hnode page hpage hsame
      have hpageWritten := hkeeps.page node hnode page hpage
      rw [← hfile node hnode page hpage, hsame, hkeeps.index, Option.some.injEq] at hpageWritten
      exact page_ne_indexPage hpage hpageWritten.symm
  . intro h nodes hnodes disk
    exact ⟨_, keepsPages_of_pathsApart h hnodes⟩

-- `module index; endmodule`: its page takes the place of the index
def indexSymbols : SymbolTable := (SymbolTable.new.intern "index".toList).2

def indexModule : InMemoryGraph :=
  (InMemoryGraph.new.addNode ⟨1, .module (SymbolTable.new.intern "index".toList).1,
    none, 0, 0, 0⟩).2

theorem not_overwritesNothing_index
    : ¬OverwritesNothing indexModule indexSymbols [] (.ofText "docs".toList) [] := by
  intro h
  obtain ⟨fileOf, hkeeps⟩ := h indexModule.allNodes (.refl _) fun _ => none
  have hindex := hkeeps.index
  revert hindex
  decide +kernel

end MarkdownExporter
end HdlGraph
