import HdlGraph.Parse.Extractor.Ports
import HdlGraph.Project.Located

/-!
This module contains the search for the file of a node, of which the code has three copies. All of
them go down the `Contains` edges from the nodes of the files, two of them three steps deep and one
two steps.
-/

namespace HdlGraph

open scoped List
open Blocks

/-! ## The copies -/

-- The nested loops of the copies, as many as there are hops
def containedWithin (g : InMemoryGraph) (nodeId : NodeId) : Nat → NodeId → Bool
  | 0, id => id = nodeId
  | hops + 1, id =>
    id = nodeId || (g.getOutgoing id).any fun e =>
      e.edgeType = .contains && containedWithin g nodeId hops e.target

-- `fileMap` in the order in which the map happens to give its entries
def findFileWithin (hops : Nat) (g : InMemoryGraph) (fileMap : List (Text × NodeId))
    (nodeId : NodeId) : Option Text :=
  fileMap.findSome? fun (path, fid) => if containedWithin g nodeId hops fid then some path else none

namespace Helpers

def findFileForNode : InMemoryGraph → List (Text × NodeId) → NodeId → Option Text :=
  findFileWithin 3

end Helpers

namespace NodeInfo

def findFileForNode : InMemoryGraph → List (Text × NodeId) → NodeId → Option Text :=
  findFileWithin 3

end NodeInfo

namespace JsonExporter

def findFileForNode : InMemoryGraph → List (Text × NodeId) → NodeId → Option Text :=
  findFileWithin 2

end JsonExporter

/-! ## What they answer -/

inductive ContainsWithin (edges : List Edge) (nodeId : NodeId) : Nat → NodeId → Prop where
  | here (hops : Nat) : ContainsWithin edges nodeId hops nodeId
  | step {hops : Nat} {e : Edge} (hmem : e ∈ edges) (hcontains : e.edgeType = .contains)
      (hrest : ContainsWithin edges nodeId hops e.target) : ContainsWithin edges nodeId
      (hops + 1) e.source

namespace ProjectState

-- The id of the `SourceFile` node, which is the first node of a file
def Subgraph.rootId (sub : Subgraph) : NodeId := (sub.1.head?.join.map NamedNode.id).getD 0

-- A search finds the file of a node that is at most `hops` edges below the file, and no other file
def FindsWithin (find : InMemoryGraph → List (Text × NodeId) → NodeId → Option Text) (hops : Nat)
    (state : ProjectState) (file : FileRead) (sub : Subgraph) (nodeId : NodeId) : Prop :=
  ∀ fileMap, fileMap ~ state.fileMap.toList →
    (ContainsWithin sub.2 nodeId hops sub.rootId → find state.graph fileMap nodeId = some file.rel)
      ∧ (¬ContainsWithin sub.2 nodeId hops sub.rootId → find state.graph fileMap nodeId = none)

structure AnswersFor (state : ProjectState) (file : FileRead) (sub : Subgraph) (nodeId : NodeId)
    : Prop where
  helpers : FindsWithin Helpers.findFileForNode 3 state file sub nodeId
  nodeInfo : FindsWithin NodeInfo.findFileForNode 3 state file sub nodeId
  jsonExport : FindsWithin JsonExporter.findFileForNode 2 state file sub nodeId

/-- All copies attribute each node of each file to its file. -/
def AttributesEveryNode (state : ProjectState) (subs : List (FileRead × Subgraph)) : Prop :=
  ∀ e ∈ subs, ∀ node, some node ∈ e.2.1 → ∀ fileMap, fileMap ~ state.fileMap.toList →
    Helpers.findFileForNode state.graph fileMap node.id = some e.1.rel
      ∧ NodeInfo.findFileForNode state.graph fileMap node.id = some e.1.rel
      ∧ JsonExporter.findFileForNode state.graph fileMap node.id = some e.1.rel

variable {parse : Text → Option Cst → Cst} {prepare : Text → Text → Text} {files : List FileRead}
variable {st : InMemoryGraph × GraphExtractor × Dict Text NodeId} {x : Nat × FileRead}
  {nodeId : NodeId} {hops : Nat}

theorem Loaded.containedWithin_iff (h : Loaded parse prepare files st)
    (hx : x ∈ placed parse prepare files) {id : NodeId}
    (hid : Covers (blockSize parse prepare) x id)
    : containedWithin st.1 nodeId hops id = true
        ↔ ContainsWithin (subgraphAt parse prepare x).2 nodeId hops id := by
  induction hops generalizing id with
  | zero =>
    rw [containedWithin, decide_eq_true_eq]
    constructor
    . intro heq
      subst heq
      exact .here 0
    . intro hcontains
      cases hcontains
      rfl
  | succ hops ih =>
    simp only [containedWithin, Bool.or_eq_true, decide_eq_true_eq, List.any_eq_true,
      Bool.and_eq_true]
    constructor
    . rintro (heq | ⟨e, he, hcontains, hrest⟩)
      . subst heq
        exact .here _
      . obtain ⟨hedge, hsource⟩ := (h.mem_getOutgoing_iff hx hid).mp he
        have htarget := (covers_of_mem_edges hedge).2
        subst hsource
        exact .step hedge hcontains ((ih htarget).mp hrest)
    . intro hcontains
      cases hcontains with
      | here => exact Or.inl rfl
      | step hedge hcontains hrest =>
        have htarget := (covers_of_mem_edges hedge).2
        exact Or.inr ⟨_, (h.mem_getOutgoing_iff hx hid).mpr ⟨hedge, rfl⟩, hcontains,
          (ih htarget).mpr hrest⟩

theorem covers_of_containsWithin {id : NodeId} (hid : Covers (blockSize parse prepare) x id)
    (h : ContainsWithin (subgraphAt parse prepare x).2 nodeId hops id)
    : Covers (blockSize parse prepare) x nodeId := by
  induction h with
  | here => exact hid
  | step hedge _ _ ih => exact ih (covers_of_mem_edges hedge).2

theorem rootId_subgraphAt (hcontent : x.2.content.isSome)
    : (subgraphAt parse prepare x).rootId = x.1 := by
  obtain ⟨content, hcontent⟩ := Option.isSome_iff_exists.mp hcontent
  rw [subgraphAt, outlineOf_of_some parse prepare hcontent]
  rfl

theorem isSome_content_of_mem {node : NamedNode} (h : some node ∈ (subgraphAt parse prepare x).1)
    : x.2.content.isSome := by
  cases hcontent : x.2.content with
  | none => simp [subgraphAt, outlineOf_of_none parse prepare hcontent] at h
  | some content => rfl

theorem Loaded.findSome?_eq_some (h : Loaded parse prepare files st) {v : NodeId}
    (test : NodeId → Bool)
    (htest : ∀ x ∈ placed parse prepare files, x.2.content.isSome → test x.1 →
      Covers (blockSize parse prepare) x v)
    {fileMap : List (Text × NodeId)} (hfileMap : fileMap ~ st.2.2.toList) {rel : Text}
    {fid : NodeId} (hentry : (rel, fid) ∈ st.2.2.toList) (hfid : test fid)
    : fileMap.findSome? (fun (path, fid) => if test fid then some path else none) = some rel := by
  obtain ⟨x, hlast, rfl⟩ := h.mem_fileMap_iff.mp hentry
  have ⟨hx, hrel, hcontent⟩ := mem_of_lastUnder hlast
  cases hfind : fileMap.findSome? fun (path, fid) => if test fid then some path else none with
  | none =>
    have hnone := List.findSome?_eq_none_iff.mp hfind _ (hfileMap.mem_iff.mpr hentry)
    simp [hfid] at hnone
  | some path =>
    obtain ⟨⟨rel', fid'⟩, hmem, hpath⟩ := List.exists_of_findSome?_eq_some hfind
    rw [Option.ite_none_right_eq_some, Option.some.injEq] at hpath
    obtain ⟨hfid', rfl⟩ := hpath
    obtain ⟨y, hlast', rfl⟩ := h.mem_fileMap_iff.mp (hfileMap.mem_iff.mp hmem)
    have ⟨hy, hrel', hcontent'⟩ := mem_of_lastUnder hlast'
    have heq : y = x :=
      eq_of_covers placed_pairwise hy hx (htest y hy hcontent' hfid') (htest x hx hcontent hfid)
    rw [← hrel', heq, hrel]

theorem Loaded.covers_of_containedWithin (h : Loaded parse prepare files st)
    (hx : x ∈ placed parse prepare files) (hcontent : x.2.content.isSome)
    (hwithin : containedWithin st.1 nodeId hops x.1)
    : Covers (blockSize parse prepare) x nodeId :=
  covers_of_containsWithin (covers_start hcontent)
    ((h.containedWithin_iff hx (covers_start hcontent)).mp hwithin)

theorem Loaded.findFileWithin_eq (h : Loaded parse prepare files st)
    {fileMap fileMap' : List (Text × NodeId)} (hfileMap : fileMap ~ st.2.2.toList)
    (hfileMap' : fileMap' ~ st.2.2.toList) (hops : Nat) (nodeId : NodeId)
    : findFileWithin hops st.1 fileMap nodeId = findFileWithin hops st.1 fileMap' nodeId := by
  rw [findFileWithin, findFileWithin]
  cases hfind : fileMap.findSome? fun (path, fid) =>
    if containedWithin st.1 nodeId hops fid then some path else none with
  | some path =>
    obtain ⟨⟨rel, fid⟩, hmem, hpath⟩ := List.exists_of_findSome?_eq_some hfind
    rw [Option.ite_none_right_eq_some, Option.some.injEq] at hpath
    obtain ⟨hwithin, rfl⟩ := hpath
    symm
    refine h.findSome?_eq_some (containedWithin st.1 nodeId hops) (v := nodeId) ?_ hfileMap'
      (hfileMap.mem_iff.mp hmem) hwithin
    exact fun x hx hcontent hcontained => h.covers_of_containedWithin hx hcontent hcontained
  | none =>
    symm
    rw [List.findSome?_eq_none_iff] at hfind ⊢
    intro entry hentry
    exact hfind entry (hfileMap.mem_iff.mpr (hfileMap'.mem_iff.mp hentry))

theorem findsWithin_findFileWithin (hrels : (files.map FileRead.rel).Nodup)
    (hx : x ∈ placed parse prepare files) {node : NamedNode}
    (hnode : some node ∈ (subgraphAt parse prepare x).1) (hops : Nat)
    : FindsWithin (findFileWithin hops) hops (loadFiles parse prepare files) x.2
        (subgraphAt parse prepare x) node.id := by
  have h := loaded_foldl parse prepare files
  have hcontent := isSome_content_of_mem hnode
  intro fileMap hfileMap
  rw [rootId_subgraphAt hcontent]
  constructor
  . intro hwithin
    have hentry : (x.2.rel, x.1) ∈ (loadFiles parse prepare files).fileMap.toList :=
      h.mem_fileMap_iff.mpr ⟨x, lastUnder_of_nodup hrels hx hcontent, rfl⟩
    refine h.findSome?_eq_some (containedWithin (loadFiles parse prepare files).graph node.id hops)
      (v := node.id) ?_ hfileMap
      hentry ?_
    . exact fun y hy hycontent hcontained => h.covers_of_containedWithin hy hycontent hcontained
    . exact (h.containedWithin_iff hx (covers_start hcontent)).mpr hwithin
  . intro hwithin
    rw [findFileWithin, List.findSome?_eq_none_iff]
    rintro ⟨rel, fid⟩ hentry
    rw [ite_eq_right_iff]
    intro hcontained
    -- an entry whose search gets to the node is that of its file
    obtain ⟨y, hlast, rfl⟩ := h.mem_fileMap_iff.mp (hfileMap.mem_iff.mp hentry)
    have ⟨hy, _, hycontent⟩ := mem_of_lastUnder hlast
    have hcovers := h.covers_of_containedWithin hy hycontent hcontained
    obtain rfl := eq_of_covers placed_pairwise hy hx hcovers (covers_of_mem_nodes hnode)
    exact absurd ((h.containedWithin_iff hy (covers_start hycontent)).mp hcontained) hwithin

theorem answersFor_of_mem (hrels : (files.map FileRead.rel).Nodup) {file : FileRead}
    {sub : Subgraph} (hsub : (file, sub) ∈ subgraphs parse prepare files) {node : NamedNode}
    (hnode : some node ∈ sub.1)
    : AnswersFor (loadFiles parse prepare files) file sub node.id := by
  rw [subgraphs_eq, List.mem_map] at hsub
  obtain ⟨x, hx, heq⟩ := hsub
  rw [Prod.mk.injEq] at heq
  obtain ⟨rfl, rfl⟩ := heq
  constructor
  . exact findsWithin_findFileWithin hrels hx hnode 3
  . exact findsWithin_findFileWithin hrels hx hnode 3
  . exact findsWithin_findFileWithin hrels hx hnode 2

def parsePort (text : Text) (_old : Option Cst) : Cst :=
  .node .other [] text ⟨0, 0⟩ [
    .node .moduleDeclaration [] text ⟨0, 0⟩ [
      .node .moduleAnsiHeader [] text ⟨0, 0⟩ [
        UvmCall.token .simpleIdentifier [.name] "m".toList,
        GraphExtractor.wirePortList .input "a".toList]]]

def portFile : FileRead := ⟨"m.sv".toList, some "module m (input wire a); endmodule".toList⟩

def portSubgraph : Subgraph := subgraphAt parsePort (fun source _ => source) (1, portFile)

theorem mem_subgraphs_port
    : (portFile, portSubgraph) ∈ subgraphs parsePort (fun source _ => source) [portFile] := by
  rw [subgraphs_eq]
  exact List.mem_singleton.mpr rfl

theorem answersFor_port : AnswersFor (loadOrBuild parsePort [portFile]) portFile portSubgraph 2 :=
  have hmodule : some ⟨2, .module "m".toList, 1, 0⟩ ∈ portSubgraph.1 := by decide
  answersFor_of_mem (by decide) mem_subgraphs_port hmodule

-- The port hangs on the module by a `Defines` edge, so that no copy finds its file
theorem not_attributesEveryNode_port
    : ([portFile].map FileRead.rel).Nodup
        ∧ ¬AttributesEveryNode (loadOrBuild parsePort [portFile])
            (subgraphs parsePort (fun source _ => source) [portFile]) := by
  refine ⟨by decide, ?_⟩
  intro h
  have hport : some ⟨3, .modulePort "a".toList .inout, 1, 0⟩ ∈ portSubgraph.1 := by decide
  have hanswer := (h _ mem_subgraphs_port _ hport _ (List.Perm.refl _)).1
  revert hanswer
  decide +kernel

end ProjectState
end HdlGraph
