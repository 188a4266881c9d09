import HdlGraph.Project.Layout
import Mathlib.Data.Set.Function

/-!
This module contains the invariant of incremental indexing: the state describes a layout of the
current contents, where a change set for one file replaces its block by a new one at the counter.
-/

namespace HdlGraph

open scoped List

namespace IndexedProject

variable {H : Type} {outline : Text → FileOutline} {computeFileHash : Text → H}

structure Describes (outline : Text → FileOutline) (computeFileHash : Text → H)
    (state : IndexedProject H) (l : Layout) : Prop where
  reachable : state.graph.Reachable
  nodes : state.graph.allNodes.map (·.named state.extractor.symbols)
    ~ (Layout.nodes outline l.toList).map some
  edges : state.graph.allEdges ~ Layout.edges outline l.toList
  fileMap : ∀ rel, state.fileMap.get? rel = (l.get? rel).map Placed.base
  fileNodeIds : ∀ rel, state.fileNodeIds.get? rel = (l.get? rel).map (Placed.nodeIds outline)
  fileEdges : ∀ rel, state.fileEdges.get? rel = (l.get? rel).map (Placed.edges outline)
  fileHashes : ∀ rel p, l.get? rel = some p →
    state.fileHashes.get? p.base = some (computeFileHash p.content)
  apart : l.Apart outline state.extractor.nextId

namespace Describes

variable {state : IndexedProject H} {l : Layout}

theorem new : Describes outline computeFileHash (new H) .empty where
  reachable := InMemoryGraph.Reachable.new
  nodes := .refl _
  edges := .refl _
  fileMap := by simp [IndexedProject.new]
  fileNodeIds := by simp [IndexedProject.new]
  fileEdges := by simp [IndexedProject.new]
  fileHashes := by simp
  apart := .empty _

/-! ## One file -/

theorem mem_oldNodeIds (h : Describes outline computeFileHash state l) {rel : Text} {id : NodeId}
    : id ∈ state.fileNodeIds.getD rel [] ↔ ∃ p, l.get? rel = some p ∧ id ∈ p.nodeIds outline := by
  rw [Dict.getD, h.fileNodeIds]
  cases l.get? rel <;> simp

theorem mem_oldEdges (h : Describes outline computeFileHash state l) {rel : Text} {e : Edge}
    : e ∈ state.fileEdges.getD rel [] ↔ ∃ p, l.get? rel = some p ∧ e ∈ p.edges outline := by
  rw [Dict.getD, h.fileEdges]
  cases l.get? rel <;> simp

theorem notMem_removedNodeIds (h : Describes outline computeFileHash state l) {rel rel' : Text}
    {p' : Placed} (hget' : l.get? rel' = some p') (hne : rel' ≠ rel) {id : NodeId}
    (howns' : p'.Owns outline id) (tree : Cst) (fileId : Nat)
    : id ∉ (state.extractor.extractChangeset tree fileId (state.fileNodeIds.getD rel [])
        (state.fileEdges.getD rel [])).1.removedNodeIds := by
  rw [GraphExtractor.mem_removedNodeIds_iff, h.mem_oldNodeIds]
  rintro ⟨⟨p, hget, hid⟩, _⟩
  exact hne (h.apart.rel_eq hget' hget howns' (p.owns_of_mem_nodeIds outline hid))

theorem notMem_removedEdges (h : Describes outline computeFileHash state l) {rel rel' : Text}
    {p' : Placed} (hget' : l.get? rel' = some p') (hne : rel' ≠ rel) {e : Edge}
    (he : e ∈ p'.edges outline) (tree : Cst) (fileId : Nat)
    : e.endpoints ∉ (state.extractor.extractChangeset tree fileId (state.fileNodeIds.getD rel [])
        (state.fileEdges.getD rel [])).1.removedEdges := by
  rw [GraphExtractor.mem_removedEdges_iff]
  rintro ⟨hremoved, _⟩
  obtain ⟨e', he', heq⟩ := List.mem_map.mp hremoved
  obtain ⟨p, hget, he'⟩ := h.mem_oldEdges.mp he'
  have hsource : e'.source = e.source := congrArg Prod.fst heq
  have howns := (p.owns_of_mem_edges outline he').1
  rw [hsource] at howns
  exact hne (h.apart.rel_eq hget' hget (p'.owns_of_mem_edges outline he).1 howns)

theorem mem_removedEdges (h : Describes outline computeFileHash state l) {rel : Text} {p : Placed}
    (hget : l.get? rel = some p) {e : Edge} (he : e ∈ p.edges outline) (tree : Cst) (fileId : Nat)
    : e.endpoints ∈ (state.extractor.extractChangeset tree fileId (state.fileNodeIds.getD rel [])
        (state.fileEdges.getD rel [])).1.removedEdges := by
  have hmem : e ∈ state.fileEdges.getD rel [] := h.mem_oldEdges.mpr ⟨p, hget, he⟩
  have hlt := h.apart.lt_of_owns hget (p.owns_of_mem_edges outline he).1
  refine (GraphExtractor.mem_removedEdges_iff ..).mpr ⟨List.mem_map_of_mem hmem, ?_⟩
  -- The new edges start at new ids, so the pair is not kept
  intro hpair
  obtain ⟨e', he', heq⟩ := List.mem_map.mp hpair
  rw [(state.extractor.extract_extracts tree fileId).edges] at he'
  have hle := (FileOutline.mem_edgesAt he').1
  have hsource : e'.source = e.source := congrArg Prod.fst heq
  grind

theorem perm_nodes_applyTo (h : Describes outline computeFileHash state l) (rel : Text)
    {content : Text} {tree : Cst} (htree : GraphExtractor.fileOutline tree = outline content)
    (fileId : Nat)
    : let result := state.extractor.extractChangeset tree fileId (state.fileNodeIds.getD rel [])
        (state.fileEdges.getD rel [])
      (result.1.applyTo state.graph).allNodes.map (·.named result.2.symbols)
        ~
      (Layout.nodes outline (l.others rel) ++ (Placed.mk state.extractor.nextId content).nodes
        outline).map some := by
  intro result
  have hextract := state.extractor.extract_extracts tree fileId
  have hadded : result.1.addedNodes.map Prod.snd = (state.extractor.extract tree fileId).1.1 :=
    GraphExtractor.extractChangeset_addedNodes ..
  have hnodup := state.extractor.extract_ids_nodup tree fileId
  have hpos := state.extractor.id_ne_zero_of_mem_extract tree fileId
  rw [← hadded] at hnodup hpos
  have happly :=
    (result.1.perm_applyTo h.reachable.keyed hnodup hpos).map (·.named result.2.symbols)
  have hkept := map_named_extends hextract.symbols (map_named_filter h.nodes fun id =>
    id ∉ result.1.removedNodeIds ∧ id ∉ (result.1.addedNodes.map Prod.snd).map GraphNode.id)
  have hnew : (result.1.addedNodes.map Prod.snd).map (·.named result.2.symbols)
      = ((Placed.mk state.extractor.nextId content).nodes outline).map some := by
    rw [hadded, Placed.nodes, ← htree]
    exact hextract.nodes
  rw [List.map_append, hnew] at happly
  rw [List.map_append]
  refine happly.trans (List.Perm.append_right _ (hkept.trans (List.Perm.map _ ?_)))
  have hsplit := (Layout.perm_nodes_others outline l rel).filter fun node =>
    node.id ∉ result.1.removedNodeIds
      ∧ node.id ∉ (result.1.addedNodes.map Prod.snd).map GraphNode.id
  refine hsplit.trans (.of_eq ?_)
  rw [List.filter_append]
  have hold : ((l.get? rel).elim [] (Placed.nodes outline)).filter (fun node =>
      node.id ∉ result.1.removedNodeIds
        ∧ node.id ∉ (result.1.addedNodes.map Prod.snd).map GraphNode.id) = [] := by
    rw [List.filter_eq_nil_iff]
    intro node hnode
    cases hget : l.get? rel with
    | none => simp [hget] at hnode
    | some p =>
      rw [hget] at hnode
      have hid : node.id ∈ state.fileNodeIds.getD rel [] :=
        h.mem_oldNodeIds.mpr ⟨p, hget, List.mem_map_of_mem hnode⟩
      rw [hadded, decide_eq_true_eq, GraphExtractor.mem_removedNodeIds_iff]
      grind
  rw [hold, List.nil_append, List.filter_eq_self]
  intro node hnode
  obtain ⟨⟨rel', p'⟩, hmem, hnode⟩ := List.mem_flatMap.mp hnode
  obtain ⟨hget', hne⟩ := Layout.mem_others hmem
  have howns' := p'.owns_of_mem_nodeIds outline (List.mem_map_of_mem hnode)
  rw [hadded, decide_eq_true_eq]
  refine ⟨h.notMem_removedNodeIds hget' hne howns' tree fileId, ?_⟩
  intro hid
  have hle := (state.extractor.le_id_of_mem_extract tree fileId hid).1
  have hlt := h.apart.lt_of_owns hget' howns'
  grind

theorem perm_edges_applyTo (h : Describes outline computeFileHash state l) (rel : Text)
    {content : Text} {tree : Cst} (htree : GraphExtractor.fileOutline tree = outline content)
    (fileId : Nat)
    : let result := state.extractor.extractChangeset tree fileId (state.fileNodeIds.getD rel [])
        (state.fileEdges.getD rel [])
      (result.1.applyTo state.graph).allEdges
        ~
      Layout.edges outline (l.others rel)
        ++ (Placed.mk state.extractor.nextId content).edges outline := by
  intro result
  have hextract := state.extractor.extract_extracts tree fileId
  have hnew : (Placed.mk state.extractor.nextId content).edges outline = result.1.addedEdges := by
    rw [Placed.edges, ← htree]
    exact hextract.edges.symm
  obtain ⟨log, hlog⟩ := h.reachable.logs
  have happly := (result.1.logs_applyTo hlog).perm_allEdges
  have hperm :=
    hlog.perm_allEdges.symm.trans (h.edges.trans (Layout.perm_edges_others outline l rel))
  rw [hnew]
  refine happly.trans (List.Perm.append_right _ ((hperm.filter _).trans (.of_eq ?_)))
  rw [List.filter_append]
  have hold : ((l.get? rel).elim [] (Placed.edges outline)).filter (fun e =>
      e.endpoints ∉ result.1.removedEdges ∧ e.source ∉ result.1.removedNodeIds
        ∧ e.target ∉ result.1.removedNodeIds) = [] := by
    rw [List.filter_eq_nil_iff]
    intro e he
    cases hget : l.get? rel with
    | none => simp [hget] at he
    | some p =>
      rw [hget] at he
      have hremoved : e.endpoints ∈ result.1.removedEdges := h.mem_removedEdges hget he tree fileId
      simp [hremoved]
  rw [hold, List.nil_append, List.filter_eq_self]
  intro e he
  obtain ⟨⟨rel', p'⟩, hmem, he⟩ := List.mem_flatMap.mp he
  obtain ⟨hget', hne⟩ := Layout.mem_others hmem
  obtain ⟨hsource', htarget'⟩ := p'.owns_of_mem_edges outline he
  rw [decide_eq_true_eq]
  exact ⟨h.notMem_removedEdges hget' hne he tree fileId,
    h.notMem_removedNodeIds hget' hne hsource' tree fileId,
    h.notMem_removedNodeIds hget' hne htarget' tree fileId⟩

theorem insert (h : Describes outline computeFileHash state l) {rel content : Text} (tree : Cst)
    (htree : GraphExtractor.fileOutline tree = outline content) (fileId : Nat)
    {state' : IndexedProject H}
    (hgraph : state'.graph
      = (state.extractor.extractChangeset tree fileId (state.fileNodeIds.getD rel [])
      (state.fileEdges.getD rel [])).1.applyTo state.graph)
    (hextractor : state'.extractor = (state.extractor.extract tree fileId).2)
    (hmap : ∀ k, state'.fileMap.get? k = if k = rel then some state.extractor.nextId
      else state.fileMap.get? k)
    (hids : ∀ k, state'.fileNodeIds.get? k
      = if k = rel then some ((state.extractor.extract tree fileId).1.1.map GraphNode.id)
        else state.fileNodeIds.get? k)
    (hedges : ∀ k, state'.fileEdges.get? k
      = if k = rel then some (state.extractor.extract tree fileId).1.2 else state.fileEdges.get? k)
    (hhashes : ∀ k, state'.fileHashes.get? k
      = if k = state.extractor.nextId then some (computeFileHash content)
        else state.fileHashes.get? k)
    : Describes outline computeFileHash state' (l.insert rel ⟨state.extractor.nextId, content⟩)
        where
  reachable := hgraph ▸ ChangeSet.reachable_applyTo _ h.reachable
  nodes := by
    rw [hgraph, hextractor]
    exact (h.perm_nodes_applyTo rel htree fileId).trans
      ((Layout.perm_nodes_insert l rel _).symm.map some)
  edges := by
    rw [hgraph]
    exact (h.perm_edges_applyTo rel htree fileId).trans (Layout.perm_edges_insert l rel _).symm
  fileMap := by
    intro k
    rw [hmap, h.fileMap, Dict.get?_insert]
    split <;> rfl
  fileNodeIds := by
    intro k
    rw [hids, h.fileNodeIds, Dict.get?_insert,
      (state.extractor.extract_extracts tree fileId).map_id, htree]
    split <;> rfl
  fileEdges := by
    intro k
    rw [hedges, h.fileEdges, Dict.get?_insert, (state.extractor.extract_extracts tree fileId).edges,
      htree]
    split <;> rfl
  fileHashes := by
    intro k p hp
    rw [Dict.get?_insert] at hp
    rw [hhashes]
    split at hp
    . rw [← Option.some.inj hp, if_pos rfl]
    . -- The blocks of the other files lie below the counter
      have hle := h.apart.le k p hp
      have hsize := (outline p.content).size_pos
      rw [if_neg (by unfold Placed.size at hle; grind)]
      exact h.fileHashes k p hp
  apart := by
    rw [hextractor, (state.extractor.extract_extracts tree fileId).nextId, htree]
    exact h.apart.insert state.extractor.nextId_pos rel content

end Describes

/-! ## Runs -/

def readInto (contents : Dict Text Text) (file : FileRead) : Dict Text Text :=
  match file.content with
  | none => contents
  | some content => contents.insert file.rel content

def contentsOf (files : List FileRead) : Dict Text Text := files.foldl readInto .empty

structure Holds (outline : Text → FileOutline) (computeFileHash : Text → H)
    (state : IndexedProject H) (l : Layout) (contents : Dict Text Text) : Prop where
  describes : Describes outline computeFileHash state l
  contents : ∀ rel, contents.get? rel = (l.get? rel).map Placed.content

def parsedOutline (parse : Text → Option Cst → Cst) (content : Text) : FileOutline :=
  GraphExtractor.fileOutline (parse content none)

namespace Holds

variable {parse : Text → Option Cst → Cst} {state : IndexedProject H} {l : Layout}
  {contents : Dict Text Text}

theorem contents_insert {l : Layout} {contents : Dict Text Text}
    (h : ∀ rel, contents.get? rel = (l.get? rel).map Placed.content) (rel content : Text)
    (base : NodeId) (k : Text)
    : (contents.insert rel content).get? k
        = ((l.insert rel ⟨base, content⟩).get? k).map Placed.content := by
  rw [Dict.get?_insert, Dict.get?_insert, h]
  split <;> rfl

theorem indexFile (h : Holds (parsedOutline parse) computeFileHash state l contents)
    {file : FileRead} (hnew : contents.get? file.rel = none)
    : ∃ l', Holds (parsedOutline parse) computeFileHash
        (indexFile parse computeFileHash state file) l'
        (readInto contents file) := by
  unfold IndexedProject.indexFile readInto
  cases file.content with
  | none => exact ⟨l, h⟩
  | some content =>
    have hnone : l.get? file.rel = none := by
      rw [h.contents, Option.map_eq_none_iff] at hnew
      exact hnew
    have hids : state.fileNodeIds.getD file.rel [] = [] := by
      rw [Dict.getD, h.describes.fileNodeIds, hnone]
      rfl
    have hedges : state.fileEdges.getD file.rel [] = [] := by
      rw [Dict.getD, h.describes.fileEdges, hnone]
      rfl
    have hhead := state.extractor.head?_extract (parse content none) 0
    refine ⟨l.insert file.rel ⟨state.extractor.nextId, content⟩, ?_,
      contents_insert h.contents file.rel content _⟩
    refine h.describes.insert (parse content none) rfl 0 ?_ rfl ?_ ?_ ?_ ?_
    . rw [hids, hedges, GraphExtractor.applyTo_extractChangeset_nil]
    . intro k
      simp only [hhead, Option.getD_some, Dict.get?_insert]
    . intro k
      simp only [Dict.get?_insert]
    . intro k
      simp only [Dict.get?_insert]
    . intro k
      simp only [hhead, Option.getD_some, Dict.get?_insert]

theorem updateFile [DecidableEq H]
    (h : Holds (parsedOutline parse) computeFileHash state l contents)
    (hparse : ∀ text old, parse text old = parse text none) {file : FileRead}
    (hhash : ∀ content, file.content = some content → ∀ old, contents.get? file.rel = some old →
      computeFileHash old = computeFileHash content → old = content)
    : ∃ l', Holds (parsedOutline parse) computeFileHash
        (updateFile parse computeFileHash state file) l'
        (readInto contents file) := by
  unfold IndexedProject.updateFile readInto
  cases hcontent : file.content with
  | none => exact ⟨l, h⟩
  | some content =>
    dsimp only
    split
    . next hunchanged =>
      -- The stored hash is that of the current content, which is therefore the one just read
      obtain ⟨hne, hstored⟩ := hunchanged
      refine ⟨l, h.describes, ?_⟩
      cases hget : l.get? file.rel with
      | none =>
        rw [Dict.getD, h.describes.fileMap, hget] at hne
        exact absurd rfl hne
      | some p =>
        have hold : contents.get? file.rel = some p.content := by
          rw [h.contents, hget, Option.map_some]
        rw [Dict.getD, h.describes.fileMap, hget, Option.map_some, Option.getD_some,
          h.describes.fileHashes file.rel p hget, Option.some.injEq] at hstored
        have heq := hhash content hcontent p.content hold hstored
        intro k
        rw [Dict.get?_insert, h.contents]
        split
        . next hk => rw [hk, hget, Option.map_some, heq]
        . rfl
    . rw [hparse]
      have hpos := state.extractor.nextId_pos
      generalize hfileId : state.fileMap.getD file.rel 0 = fileId at *
      have hids :=
        state.extractor.map_fst_addedNodes (parse content none) fileId
          (state.fileNodeIds.getD file.rel [])
        (state.fileEdges.getD file.rel [])
      have hhead :=
        state.extractor.head?_addedNodes (parse content none) fileId
          (state.fileNodeIds.getD file.rel [])
        (state.fileEdges.getD file.rel [])
      refine ⟨l.insert file.rel ⟨state.extractor.nextId, content⟩, ?_,
        contents_insert h.contents file.rel content _⟩
      refine h.describes.insert (parse content none) rfl fileId rfl rfl ?_ ?_ ?_ ?_
      . intro k
        simp only [hhead, Option.getD_some, Nat.pos_iff_ne_zero.mp hpos, ne_eq, not_false_eq_true,
          if_true, Dict.get?_insert]
      . intro k
        simp only [hids, Dict.get?_insert, Dict.get?_remove]
        grind
      . intro k
        simp only [GraphExtractor.extractChangeset_addedEdges, Dict.get?_insert, Dict.get?_remove]
        grind
      . intro k
        simp only [hhead, Option.getD_some, Nat.pos_iff_ne_zero.mp hpos, ne_eq, not_false_eq_true,
          if_true, Dict.get?_insert]

end Holds

theorem get?_readInto_of_ne {contents : Dict Text Text} {file : FileRead} {rel : Text}
    (hne : rel ≠ file.rel)
    : (readInto contents file).get? rel = contents.get? rel := by
  unfold readInto
  cases file.content with
  | none => rfl
  | some content => exact Dict.get?_insert_of_ne contents content hne

theorem get?_foldl_readInto_of_ne {files : List FileRead} {rel : Text}
    (hne : ∀ file ∈ files, rel ≠ file.rel) (contents : Dict Text Text)
    : (files.foldl readInto contents).get? rel = contents.get? rel := by
  induction files generalizing contents with
  | nil => rfl
  | cons file files ih =>
    rw [List.foldl_cons, ih fun other hother => hne other (List.mem_cons_of_mem _ hother)]
    exact get?_readInto_of_ne (hne file List.mem_cons_self)

theorem get?_contentsOf_of_mem {files : List FileRead} (hrels : (files.map FileRead.rel).Nodup)
    {file : FileRead} (hfile : file ∈ files) {content : Text}
    (hcontent : file.content = some content)
    : (contentsOf files).get? file.rel = some content := by
  have ⟨before, after, hsplit⟩ := List.append_of_mem hfile
  subst hsplit
  rw [List.map_append, List.map_cons] at hrels
  have hafter : ∀ other ∈ after, file.rel ≠ other.rel := by
    intro other hother heq
    have hcons := (List.nodup_append.mp hrels).2.1
    exact (List.nodup_cons.mp hcons).1 (heq ▸ List.mem_map_of_mem hother)
  rw [contentsOf, List.foldl_append, List.foldl_cons, get?_foldl_readInto_of_ne hafter,
    readInto, hcontent]
  exact Dict.get?_insert_self _ _ _

theorem get?_contentsOf_of_perm {contents : Dict Text Text} {files : List FileRead}
    (hrels : (files.map FileRead.rel).Nodup)
    (hfiles : files ~ contents.toList.map fun e => ⟨e.1, some e.2⟩) (rel : Text)
    : (contentsOf files).get? rel = contents.get? rel := by
  cases hget : contents.get? rel with
  | some content =>
    have hmem : FileRead.mk rel (some content) ∈ files :=
      hfiles.mem_iff.mpr (List.mem_map.mpr ⟨(rel, content), Dict.mem_toList_iff.mpr hget, rfl⟩)
    exact get?_contentsOf_of_mem hrels hmem rfl
  | none =>
    apply get?_foldl_readInto_of_ne
    intro file hfile heq
    have ⟨⟨rel', content⟩, he, hrel⟩ := List.mem_map.mp (hfiles.mem_iff.mp hfile)
    have hstored := Dict.mem_toList_iff.mp he
    rw [heq, ← hrel, hstored] at hget
    simp at hget

theorem mem_of_get?_readInto {contents : Dict Text Text} {file : FileRead} {known : Set Text}
    (hknown : ∀ rel content, contents.get? rel = some content → content ∈ known)
    (hfile : ∀ content, file.content = some content → content ∈ known)
    : ∀ rel content, (readInto contents file).get? rel = some content → content ∈ known := by
  intro rel content hget
  unfold readInto at hget
  cases hcontent : file.content with
  | none =>
    rw [hcontent] at hget
    exact hknown rel content hget
  | some new =>
    rw [hcontent] at hget
    simp only [Dict.get?_insert] at hget
    split at hget
    . exact hfile content (hcontent.trans hget)
    . exact hknown rel content hget

theorem holds_indexProject (parse : Text → Option Cst → Cst) (computeFileHash : Text → H)
    {files : List FileRead} (hrels : (files.map FileRead.rel).Nodup)
    : ∃ l, Holds (parsedOutline parse) computeFileHash (indexProject parse computeFileHash files) l
        (contentsOf files) := by
  have hfold : ∀ (state : IndexedProject H) (contents : Dict Text Text),
      (∃ l, Holds (parsedOutline parse) computeFileHash state l contents) →
      (∀ file ∈ files, contents.get? file.rel = none) →
      ∃ l, Holds (parsedOutline parse) computeFileHash
        (files.foldl (IndexedProject.indexFile parse computeFileHash) state)
        l (files.foldl readInto contents) := by
    induction files with
    | nil => exact fun _ _ h _ => h
    | cons file files ih =>
      intro state contents ⟨l, h⟩ hnew
      rw [List.map_cons, List.nodup_cons] at hrels
      apply ih hrels.2 _ _ (h.indexFile (hnew file List.mem_cons_self))
      intro other hother
      have hne : other.rel ≠ file.rel := fun heq => hrels.1 (heq ▸ List.mem_map_of_mem hother)
      rw [get?_readInto_of_ne hne]
      exact hnew other (List.mem_cons_of_mem _ hother)
  exact hfold _ _ ⟨.empty, Describes.new, by simp⟩ (by simp)

theorem holds_updateFiles [DecidableEq H] {parse : Text → Option Cst → Cst}
    {computeFileHash : Text → H} (hparse : ∀ text old, parse text old = parse text none)
    {known : Set Text} (hhash : Set.InjOn computeFileHash known) {files : List FileRead}
    (hfiles : ∀ file ∈ files, ∀ content, file.content = some content → content ∈ known)
    {state : IndexedProject H} {contents : Dict Text Text}
    (h : ∃ l, Holds (parsedOutline parse) computeFileHash state l contents)
    (hknown : ∀ rel content, contents.get? rel = some content → content ∈ known)
    : ∃ l, Holds (parsedOutline parse) computeFileHash
        (files.foldl (IndexedProject.updateFile parse computeFileHash) state) l
        (files.foldl readInto contents) := by
  induction files generalizing state contents with
  | nil => exact h
  | cons file files ih =>
    have ⟨l, hl⟩ := h
    have hfile := hfiles file List.mem_cons_self
    apply ih fun other hother => hfiles other (List.mem_cons_of_mem _ hother)
    . apply hl.updateFile hparse
      intro content hcontent old hold heq
      exact hhash (hknown file.rel old hold) (hfile content hcontent) heq
    . exact mem_of_get?_readInto hknown hfile

theorem mem_of_get?_contentsOf {files : List FileRead} {known : Set Text}
    (hfiles : ∀ file ∈ files, ∀ content, file.content = some content → content ∈ known)
    : ∀ rel content, (contentsOf files).get? rel = some content → content ∈ known := by
  have hfold : ∀ contents : Dict Text Text,
      (∀ rel content, contents.get? rel = some content → content ∈ known) →
      ∀ rel content, (files.foldl readInto contents).get? rel = some content → content ∈ known := by
    induction files with
    | nil => exact fun _ h => h
    | cons file files ih =>
      intro contents hknown
      apply ih fun other hother => hfiles other (List.mem_cons_of_mem _ hother)
      exact mem_of_get?_readInto hknown (hfiles file List.mem_cons_self)
  exact hfold _ (by simp)

theorem holds_indexAndUpdate [DecidableEq H] {parse : Text → Option Cst → Cst}
    {computeFileHash : Text → H} (hparse : ∀ text old, parse text old = parse text none)
    {files : List FileRead} {rounds : List (List FileRead)} (hrels : (files.map FileRead.rel).Nodup)
    (hhash : Set.InjOn computeFileHash {content | ∃ file ∈ files ++ rounds.flatten,
      file.content = some content})
    : ∃ l, Holds (parsedOutline parse) computeFileHash
        (indexAndUpdate parse computeFileHash files rounds) l
        (contentsOf (files ++ rounds.flatten)) := by
  have hrounds : indexAndUpdate parse computeFileHash files rounds
      = rounds.flatten.foldl (IndexedProject.updateFile parse computeFileHash)
        (indexProject parse computeFileHash files) := by
    rw [List.foldl_flatten]
    rfl
  rw [hrounds, contentsOf, List.foldl_append]
  apply holds_updateFiles hparse hhash
  . intro file hfile content hcontent
    exact ⟨file, List.mem_append_right _ hfile, hcontent⟩
  . exact holds_indexProject parse computeFileHash hrels
  . apply mem_of_get?_contentsOf
    intro file hfile content hcontent
    exact ⟨file, List.mem_append_left _ hfile, hcontent⟩

end IndexedProject
end HdlGraph
