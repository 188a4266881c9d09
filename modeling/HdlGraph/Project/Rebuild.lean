import HdlGraph.Project.Describes

/-!
This module contains the proof that incremental indexing amounts to indexing from scratch: two
states that hold the same contents are the same up to a renumbering of ids.
-/

namespace HdlGraph

open scoped List

def NamedNode.relabel (σ : NodeId → NodeId) (node : NamedNode) : NamedNode :=
  { node with id := σ node.id }

def Edge.relabel (σ : NodeId → NodeId) (e : Edge) : Edge :=
  { e with source := σ e.source, target := σ e.target }

namespace IndexedProject

def Uses {H : Type} (state : IndexedProject H) (id : NodeId) : Prop :=
  id ∈ state.graph.allNodes.map GraphNode.id ∨ ∃ e ∈ state.graph.allEdges, e.source = id
    ∨ e.target = id

/--
Two projects are the same under a renumbering of the ids of the first one. Nodes are compared with
their names resolved, each in the symbol table of its own project.
-/
structure SameUnder {H : Type} (σ : NodeId → NodeId) (state fresh : IndexedProject H) : Prop where
  injective : Set.InjOn σ {id | state.Uses id}
  resolved : ∀ node ∈ state.graph.allNodes, (node.named state.extractor.symbols).isSome
  nodes : state.graph.allNodes.map
      (fun node => (node.named state.extractor.symbols).map (·.relabel σ))
    ~ fresh.graph.allNodes.map (·.named fresh.extractor.symbols)
  edges : state.graph.allEdges.map (·.relabel σ) ~ fresh.graph.allEdges
  fileMap : ∀ rel, fresh.fileMap.get? rel = (state.fileMap.get? rel).map σ
  fileNodeIds : ∀ rel, fresh.fileNodeIds.get? rel = (state.fileNodeIds.get? rel).map (List.map σ)
  fileEdges : ∀ rel,
    fresh.fileEdges.get? rel = (state.fileEdges.get? rel).map (List.map (·.relabel σ))

/--
The maps describe the current nodes and edges of each file, and nothing else: a file with this
content has its `SourceFile` id, its node ids and its edges as its content was extracted at that id,
the nodes with these ids are those that the content declares, and all nodes and edges are in some
file.
-/
structure MapsExact {H : Type} (outline : Text → FileOutline) (contents : Dict Text Text)
    (state : IndexedProject H)
    : Prop where
  present : ∀ rel content, contents.get? rel = some content → ∃ base ids,
    state.fileMap.get? rel = some base
      ∧ state.fileNodeIds.get? rel = some ids
      ∧ state.fileEdges.get? rel = some ((outline content).edgesAt base)
      ∧ ids = ((outline content).nodesAt base).map NamedNode.id
      ∧ (state.graph.allNodes.filter fun node => node.id ∈ ids).map
        (·.named state.extractor.symbols)
          ~ ((outline content).nodesAt base).map some
  absent : ∀ rel, contents.get? rel = none →
    state.fileMap.get? rel = none ∧ state.fileNodeIds.get? rel = none
      ∧ state.fileEdges.get? rel = none
  nodes : state.graph.allNodes.map GraphNode.id ~ state.fileNodeIds.toList.flatMap Prod.snd
  edges : state.graph.allEdges ~ state.fileEdges.toList.flatMap Prod.snd

variable {H : Type} {outline : Text → FileOutline} {computeFileHash : Text → H}

namespace Describes

variable {state : IndexedProject H} {l : Layout}

theorem map_id_allNodes (h : Describes outline computeFileHash state l)
    : state.graph.allNodes.map GraphNode.id ~ (Layout.nodes outline l.toList).map NamedNode.id := by
  have hid : ∀ node ∈ state.graph.allNodes,
      some node.id = (node.named state.extractor.symbols).map NamedNode.id := by
    intro node hnode
    have ⟨content, _, hcontent⟩ := List.mem_map.mp (h.nodes.mem_iff.mp (List.mem_map_of_mem hnode))
    have ⟨_, _, heq⟩ := Option.map_eq_some_iff.mp hcontent.symm
    rw [← hcontent, ← heq]
    rfl
  have hmap := h.nodes.map (Option.map NamedNode.id)
  rw [List.map_map, List.map_map] at hmap
  have hleft : state.graph.allNodes.map
        (Option.map NamedNode.id ∘ (·.named state.extractor.symbols))
      = (state.graph.allNodes.map GraphNode.id).map some := by
    rw [List.map_map]
    apply List.map_congr_left
    intro node hnode
    exact (hid node hnode).symm
  have hright : (Layout.nodes outline l.toList).map (Option.map NamedNode.id ∘ some)
      = ((Layout.nodes outline l.toList).map NamedNode.id).map some := by
    rw [List.map_map]
    rfl
  rw [hleft, hright] at hmap
  exact (List.map_perm_map_iff (Option.some_injective _)).mp hmap

theorem owns_of_uses (h : Describes outline computeFileHash state l) {id : NodeId}
    (hid : state.Uses id)
    : ∃ rel p, l.get? rel = some p ∧ p.Owns outline id := by
  cases hid with
  | inl hid =>
    have ⟨node, hnode, heq⟩ := List.mem_map.mp (h.map_id_allNodes.mem_iff.mp hid)
    have ⟨⟨rel, p⟩, he, hnode⟩ := List.mem_flatMap.mp hnode
    exact ⟨rel, p, Dict.mem_toList_iff.mp he,
      heq ▸ p.owns_of_mem_nodeIds outline (List.mem_map_of_mem hnode)⟩
  | inr hid =>
    have ⟨e, he, hend⟩ := hid
    have ⟨⟨rel, p⟩, hentry, he⟩ := List.mem_flatMap.mp (h.edges.mem_iff.mp he)
    have ⟨hsource, htarget⟩ := p.owns_of_mem_edges outline he
    refine ⟨rel, p, Dict.mem_toList_iff.mp hentry, ?_⟩
    cases hend with
    | inl heq => exact heq ▸ hsource
    | inr heq => exact heq ▸ htarget

theorem mapsExact (h : Describes outline computeFileHash state l) {contents : Dict Text Text}
    (hcontents : ∀ rel, contents.get? rel = (l.get? rel).map Placed.content)
    : MapsExact outline contents state where
  present := by
    intro rel content hget
    rw [hcontents] at hget
    have ⟨p, hp, heq⟩ := Option.map_eq_some_iff.mp hget
    subst heq
    refine ⟨p.base, p.nodeIds outline, ?_, ?_, ?_, rfl, ?_⟩
    . rw [h.fileMap, hp, Option.map_some]
    . rw [h.fileNodeIds, hp, Option.map_some]
    . rw [h.fileEdges, hp]
      rfl
    . refine (map_named_filter h.nodes fun id => id ∈ p.nodeIds outline).trans (List.Perm.map _ ?_)
      have hsplit :=
        (Layout.perm_nodes_others outline l rel).filter fun node => node.id ∈ p.nodeIds outline
      refine hsplit.trans (.of_eq ?_)
      have hown : (p.nodes outline).filter (fun node => node.id ∈ p.nodeIds outline)
          = p.nodes outline := by
        rw [List.filter_eq_self]
        intro node hnode
        exact decide_eq_true (List.mem_map_of_mem hnode)
      have hothers : (Layout.nodes outline (l.others rel)).filter
          (fun node => node.id ∈ p.nodeIds outline) = [] := by
        rw [List.filter_eq_nil_iff]
        intro node hnode hid
        have ⟨⟨rel', p'⟩, hmem, hnode⟩ := List.mem_flatMap.mp hnode
        have ⟨hp', hne⟩ := Layout.mem_others hmem
        have howns := p.owns_of_mem_nodeIds outline (by simpa using hid)
        exact hne (h.apart.rel_eq hp' hp
          (p'.owns_of_mem_nodeIds outline (List.mem_map_of_mem hnode)) howns)
      rw [List.filter_append, hp, Option.elim_some, hown, hothers, List.append_nil]
      rfl
  absent := by
    intro rel hget
    rw [hcontents, Option.map_eq_none_iff] at hget
    rw [h.fileMap, h.fileNodeIds, h.fileEdges, hget]
    exact ⟨rfl, rfl, rfl⟩
  nodes := by
    have hentries := Dict.perm_toList_map (f := fun _ => Placed.nodeIds outline) h.fileNodeIds
    have hids := (hentries.flatMap_right Prod.snd).symm
    rw [List.flatMap_map] at hids
    refine h.map_id_allNodes.trans (.trans (.of_eq ?_) hids)
    rw [Layout.nodes, List.map_flatMap]
    rfl
  edges := by
    have hentries := Dict.perm_toList_map (f := fun _ => Placed.edges outline) h.fileEdges
    have hedges := (hentries.flatMap_right Prod.snd).symm
    rw [List.flatMap_map] at hedges
    exact h.edges.trans hedges

end Describes

/-! ## Renumbering -/

def relocate (outline : Text → FileOutline) (l l' : Layout) (id : NodeId) : NodeId :=
  match l.toList.find? fun e => e.2.Owns outline id with
  | some (rel, p) => id - p.base + ((l'.get? rel).map Placed.base).getD 0
  | none => id

variable {l l' : Layout} {nextId nextId' : NodeId}

theorem relocate_eq (h : l.Apart outline nextId) {rel : Text} {p p' : Placed}
    (hp : l.get? rel = some p) (hp' : l'.get? rel = some p') {id : NodeId} (hid : p.Owns outline id)
    : relocate outline l l' id = id - p.base + p'.base := by
  have hfound : l.toList.find? (fun e => e.2.Owns outline id) = some (rel, p) := by
    cases hfind : l.toList.find? fun e => e.2.Owns outline id with
    | none =>
      have := List.find?_eq_none.mp hfind (rel, p) (Dict.mem_toList_iff.mpr hp)
      simp [hid] at this
    | some e =>
      have hmem := Dict.mem_toList_iff.mp (List.mem_of_find?_eq_some hfind)
      have howns : e.2.Owns outline id := by simpa using List.find?_some hfind
      have hrel := h.rel_eq hmem hp howns hid
      have hsame : some e.2 = some p := by rw [← hmem, hrel, hp]
      rw [← hrel, ← Option.some.inj hsame]
  simp only [relocate, hfound, hp', Option.map_some, Option.getD_some]

theorem nodes_relocate (h : l.Apart outline nextId) {rel : Text} {p p' : Placed}
    (hp : l.get? rel = some p) (hp' : l'.get? rel = some p') (hcontent : p'.content = p.content)
    : (p.nodes outline).map (·.relabel (relocate outline l l')) = p'.nodes outline := by
  have hfrom := (outline p.content).nodesAt_shift p.base 0
  have hto := (outline p.content).nodesAt_shift p'.base 0
  rw [Nat.zero_add] at hfrom hto
  have hall : ∀ node ∈ (outline p.content).nodesAt 0,
      (node.shift p.base).relabel (relocate outline l l') = node.shift p'.base := by
    intro node hnode
    have howns : p.Owns outline (node.shift p.base).id := by
      apply p.owns_of_mem_nodeIds outline
      apply List.mem_map_of_mem
      rw [Placed.nodes, hfrom]
      exact List.mem_map_of_mem hnode
    rw [NamedNode.relabel, relocate_eq h hp hp' howns]
    simp [NamedNode.shift]
  rw [Placed.nodes, Placed.nodes, hcontent, hfrom, hto, List.map_map]
  exact List.map_congr_left hall

theorem edges_relocate (h : l.Apart outline nextId) {rel : Text} {p p' : Placed}
    (hp : l.get? rel = some p) (hp' : l'.get? rel = some p') (hcontent : p'.content = p.content)
    : (p.edges outline).map (·.relabel (relocate outline l l')) = p'.edges outline := by
  have hfrom := (outline p.content).edgesAt_shift p.base 0
  have hto := (outline p.content).edgesAt_shift p'.base 0
  rw [Nat.zero_add] at hfrom hto
  have hall : ∀ e ∈ (outline p.content).edgesAt 0,
      (e.shift p.base).relabel (relocate outline l l') = e.shift p'.base := by
    intro e he
    have ⟨hsource, htarget⟩ := p.owns_of_mem_edges (e := e.shift p.base) outline (by
      rw [Placed.edges, hfrom]
      exact List.mem_map_of_mem he)
    rw [Edge.relabel, relocate_eq h hp hp' hsource, relocate_eq h hp hp' htarget]
    simp [Edge.shift]
  rw [Placed.edges, Placed.edges, hcontent, hfrom, hto, List.map_map]
  exact List.map_congr_left hall

theorem perm_entries
    (hcontents : ∀ rel, (l'.get? rel).map Placed.content = (l.get? rel).map Placed.content)
    : l'.toList ~ l.toList.map fun e => (e.1, (l'.get? e.1).getD e.2) := by
  apply Dict.perm_toList_map (f := fun rel p => (l'.get? rel).getD p)
  intro rel
  have := hcontents rel
  cases hp : l.get? rel <;> cases hp' : l'.get? rel <;> simp_all

theorem exists_get?
    (hcontents : ∀ rel, (l'.get? rel).map Placed.content = (l.get? rel).map Placed.content)
    {rel : Text} {p : Placed} (hp : l.get? rel = some p)
    : ∃ p', l'.get? rel = some p' ∧ p'.content = p.content := by
  have := hcontents rel
  rw [hp, Option.map_some, Option.map_eq_some_iff] at this
  exact this

theorem map_get?_relocate {β γ : Type}
    (hcontents : ∀ rel, (l'.get? rel).map Placed.content = (l.get? rel).map Placed.content)
    {rel : Text} {f : Placed → β} {f' : Placed → γ} {g : β → γ}
    (hf : ∀ p p', l.get? rel = some p → l'.get? rel = some p' → p'.content = p.content →
      f' p' = g (f p))
    : (l'.get? rel).map f' = ((l.get? rel).map f).map g := by
  cases hp : l.get? rel with
  | none =>
    have := hcontents rel
    rw [hp, Option.map_none, Option.map_eq_none_iff] at this
    rw [this]
    rfl
  | some p =>
    obtain ⟨p', hp', hcontent⟩ := exists_get? hcontents hp
    rw [hp', Option.map_some, Option.map_some, Option.map_some, hf p p' hp hp' hcontent]

theorem relocate_injective {state : IndexedProject H}
    (h : Describes outline computeFileHash state l) (h' : l'.Apart outline nextId')
    (hcontents : ∀ rel, (l'.get? rel).map Placed.content = (l.get? rel).map Placed.content)
    {id₁ id₂ : NodeId} (hid₁ : Uses state id₁) (hid₂ : Uses state id₂)
    (heq : relocate outline l l' id₁ = relocate outline l l' id₂)
    : id₁ = id₂ := by
  obtain ⟨rel₁, p₁, hp₁, howns₁⟩ := h.owns_of_uses hid₁
  obtain ⟨rel₂, p₂, hp₂, howns₂⟩ := h.owns_of_uses hid₂
  obtain ⟨p₁', hp₁', hcontent₁⟩ := exists_get? hcontents hp₁
  obtain ⟨p₂', hp₂', hcontent₂⟩ := exists_get? hcontents hp₂
  rw [relocate_eq h.apart hp₁ hp₁' howns₁, relocate_eq h.apart hp₂ hp₂' howns₂] at heq
  -- The image lies in the blocks of both files of the other layout
  have hmoved₁ : p₁'.Owns outline (id₁ - p₁.base + p₁'.base) := by
    unfold Placed.Owns Placed.size at *
    rw [hcontent₁]
    grind
  have hmoved₂ : p₂'.Owns outline (id₁ - p₁.base + p₁'.base) := by
    rw [heq]
    unfold Placed.Owns Placed.size at *
    rw [hcontent₂]
    grind
  have hrel := h'.rel_eq hp₁' hp₂' hmoved₁ hmoved₂
  subst hrel
  rw [hp₁, Option.some.injEq] at hp₂
  rw [hp₁', Option.some.injEq] at hp₂'
  subst hp₂
  subst hp₂'
  unfold Placed.Owns at howns₁ howns₂
  grind

theorem sameUnder_relocate {state fresh : IndexedProject H}
    (h : Describes outline computeFileHash state l)
    (h' : Describes outline computeFileHash fresh l')
    (hcontents : ∀ rel, (l'.get? rel).map Placed.content = (l.get? rel).map Placed.content)
    : SameUnder (relocate outline l l') state fresh where
  injective := by
    intro id₁ hid₁ id₂ hid₂ heq
    exact relocate_injective h h'.apart hcontents hid₁ hid₂ heq
  resolved := by
    intro node hnode
    obtain ⟨content, _, hcontent⟩ :=
      List.mem_map.mp (h.nodes.mem_iff.mp (List.mem_map_of_mem hnode))
    rw [← hcontent]
    rfl
  nodes := by
    have hmap := h.nodes.map (Option.map (·.relabel (relocate outline l l')))
    rw [List.map_map, List.map_map] at hmap
    refine hmap.trans (.trans ?_ h'.nodes.symm)
    have hentries := ((perm_entries hcontents).flatMap_right fun e => e.2.nodes outline).map some
    rw [List.flatMap_map] at hentries
    refine .trans (.of_eq ?_) hentries.symm
    rw [Layout.nodes, List.map_flatMap, List.map_flatMap]
    apply List.flatMap_congr
    rintro ⟨rel, p⟩ he
    have hp := Dict.mem_toList_iff.mp he
    obtain ⟨p', hp', hcontent⟩ := exists_get? hcontents hp
    simp only [hp', Option.getD_some, ← nodes_relocate h.apart hp hp' hcontent, List.map_map]
    rfl
  edges := by
    refine (h.edges.map _).trans (.trans ?_ h'.edges.symm)
    have hentries := (perm_entries hcontents).flatMap_right fun e => e.2.edges outline
    rw [List.flatMap_map] at hentries
    refine .trans (.of_eq ?_) hentries.symm
    rw [Layout.edges, List.map_flatMap]
    apply List.flatMap_congr
    rintro ⟨rel, p⟩ he
    have hp := Dict.mem_toList_iff.mp he
    obtain ⟨p', hp', hcontent⟩ := exists_get? hcontents hp
    simp only [hp', Option.getD_some, ← edges_relocate h.apart hp hp' hcontent]
  fileMap := by
    intro rel
    rw [h.fileMap, h'.fileMap]
    apply map_get?_relocate hcontents
    intro p p' hp hp' _
    have howns : p.Owns outline p.base := by
      have := (outline p.content).size_pos
      unfold Placed.Owns Placed.size
      grind
    rw [relocate_eq h.apart hp hp' howns, Nat.sub_self, Nat.zero_add]
  fileNodeIds := by
    intro rel
    rw [h.fileNodeIds, h'.fileNodeIds]
    apply map_get?_relocate hcontents
    intro p p' hp hp' hcontent
    rw [Placed.nodeIds, ← nodes_relocate h.apart hp hp' hcontent, Placed.nodeIds,
      List.map_map, List.map_map]
    rfl
  fileEdges := by
    intro rel
    rw [h.fileEdges, h'.fileEdges]
    apply map_get?_relocate hcontents
    intro p p' hp hp' hcontent
    rw [edges_relocate h.apart hp hp' hcontent]

/--
Incremental indexing equals rebuilding: after any run, the project is, up to a renumbering of its
ids, the one that indexing the current contents from scratch gives, in whatever order they are
listed, and its maps are exact.
-/
theorem indexAndUpdate_eq_rebuild [DecidableEq H] (parse : Text → Option Cst → Cst)
    (computeFileHash : Text → H) (hparse : ∀ text old, parse text old = parse text none)
    (files : List FileRead) (rounds : List (List FileRead)) (hrels : (files.map FileRead.rel).Nodup)
    (hhash : Set.InjOn computeFileHash {content | ∃ file ∈ files ++ rounds.flatten,
      file.content = some content}) (current : List FileRead)
    (hcurrent : current ~ (contentsOf (files ++ rounds.flatten)).toList.map fun e =>
    ⟨e.1, some e.2⟩)
    : (∃ σ, SameUnder σ (indexAndUpdate parse computeFileHash files rounds)
          (indexProject parse computeFileHash current))
        ∧
      MapsExact (parsedOutline parse) (contentsOf (files ++ rounds.flatten))
        (indexAndUpdate parse computeFileHash files rounds) := by
  have ⟨l, h⟩ := holds_indexAndUpdate hparse hrels hhash
  have hrels' : (current.map FileRead.rel).Nodup := by
    rw [(hcurrent.map FileRead.rel).nodup_iff, List.map_map]
    exact (contentsOf (files ++ rounds.flatten)).keys_eq ▸ Dict.keys_nodup _
  have ⟨l', h'⟩ := holds_indexProject parse computeFileHash hrels'
  have hsame : ∀ rel,
      (contentsOf current).get? rel = (contentsOf (files ++ rounds.flatten)).get? rel :=
    get?_contentsOf_of_perm hrels' hcurrent
  refine ⟨⟨relocate (parsedOutline parse) l l', sameUnder_relocate h.describes h'.describes ?_⟩,
    h.describes.mapsExact h.contents⟩
  intro rel
  rw [← h.contents, ← h'.contents, hsame]

def parsePackage (text : Text) (_old : Option Cst) : Cst :=
  .node .other [] text ⟨0, 0⟩ [
    .node .packageDeclaration [] text ⟨0, 0⟩ [
      .node .simpleIdentifier [.name] ((text.drop 8).takeWhile (· ≠ ';')) ⟨0, 8⟩ []]]

theorem indexAndUpdate_eq_rebuild_packages
    : let file : String → String → FileRead := fun rel content => ⟨rel.toList, some content.toList⟩
      let files := [file "a.sv" "package p; endpackage", file "b.sv" "package q; endpackage"]
      let rounds := [
        [file "a.sv" "package r; endpackage", file "a.sv" "package p; endpackage"],
        [file "c.sv" "package s; endpackage", file "b.sv" "package q; endpackage"]]
      let current := (contentsOf (files ++ rounds.flatten)).toList.map fun e => ⟨e.1, some e.2⟩
      (∃ σ, SameUnder σ (indexAndUpdate parsePackage id files rounds)
          (indexProject parsePackage id current))
        ∧
      MapsExact (parsedOutline parsePackage) (contentsOf (files ++ rounds.flatten))
        (indexAndUpdate parsePackage id files rounds) := by
  intro file files rounds current
  exact indexAndUpdate_eq_rebuild parsePackage id (fun _ _ => rfl) files rounds (by decide)
    (Set.injOn_id _) current
    (.refl _)

end IndexedProject
end HdlGraph
