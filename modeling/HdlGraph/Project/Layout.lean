import HdlGraph.Project.Index

/-!
This module contains the layout of an indexed project: for every file that was read, its current
content and the block of ids that this content takes. A state describes a layout if all its maps,
the stored nodes and the stored edges are those of the layout; indexing and updating a file keep
this.
-/

namespace HdlGraph

open scoped List

structure Placed where
  base : NodeId
  content : Text
  deriving DecidableEq

abbrev Layout := Dict Text Placed

namespace Placed

variable (outline : Text → FileOutline)

def size (p : Placed) : Nat := (outline p.content).size

def nodes (p : Placed) : List NamedNode := (outline p.content).nodesAt p.base

def nodeIds (p : Placed) : List NodeId := (p.nodes outline).map NamedNode.id

def edges (p : Placed) : List Edge := (outline p.content).edgesAt p.base

def Owns (p : Placed) (id : NodeId) : Prop := p.base ≤ id ∧ id < p.base + p.size outline

instance (p : Placed) (id : NodeId) : Decidable (p.Owns outline id) :=
  inferInstanceAs (Decidable (_ ∧ _))

theorem owns_of_mem_nodeIds {p : Placed} {id : NodeId} (hid : id ∈ p.nodeIds outline)
    : p.Owns outline id := by
  have ⟨node, hnode, heq⟩ := List.mem_map.mp hid
  exact heq ▸ FileOutline.id_mem_nodesAt hnode

theorem owns_of_mem_edges {p : Placed} {e : Edge} (he : e ∈ p.edges outline)
    : p.Owns outline e.source ∧ p.Owns outline e.target := by
  have := FileOutline.mem_edgesAt he
  unfold Owns size
  grind

end Placed

namespace Layout

variable (outline : Text → FileOutline)

def nodes (entries : List (Text × Placed)) : List NamedNode :=
  entries.flatMap fun e => e.2.nodes outline

def edges (entries : List (Text × Placed)) : List Edge := entries.flatMap fun e => e.2.edges outline

def others (l : Layout) (rel : Text) : List (Text × Placed) := l.toList.filter fun e => e.1 ≠ rel

structure Apart (l : Layout) (nextId : NodeId) : Prop where
  pos : ∀ rel p, l.get? rel = some p → 0 < p.base
  le : ∀ rel p, l.get? rel = some p → p.base + p.size outline ≤ nextId
  disjoint : ∀ rel rel' p p', l.get? rel = some p → l.get? rel' = some p' → rel ≠ rel' →
    p.base + p.size outline ≤ p'.base ∨ p'.base + p'.size outline ≤ p.base

variable {outline}

theorem mem_others {l : Layout} {rel rel' : Text} {p : Placed} (h : (rel', p) ∈ l.others rel)
    : l.get? rel' = some p ∧ rel' ≠ rel := by
  have ⟨hmem, hne⟩ := List.mem_filter.mp h
  exact ⟨Dict.mem_toList_iff.mp hmem, by simpa using hne⟩

theorem perm_nodes_insert (l : Layout) (rel : Text) (p : Placed)
    : nodes outline (l.insert rel p).toList ~ nodes outline (l.others rel) ++ p.nodes outline :=
  ((Dict.perm_toList_insert l rel p).flatMap_right _).trans List.perm_append_comm

theorem perm_edges_insert (l : Layout) (rel : Text) (p : Placed)
    : edges outline (l.insert rel p).toList ~ edges outline (l.others rel) ++ p.edges outline :=
  ((Dict.perm_toList_insert l rel p).flatMap_right _).trans List.perm_append_comm

theorem perm_nodes_others (outline : Text → FileOutline) (l : Layout) (rel : Text)
    : nodes outline l.toList ~ (l.get? rel).elim [] (Placed.nodes outline)
        ++ nodes outline (l.others rel) := by
  cases hget : l.get? rel with
  | none =>
    rw [others, Dict.filter_toList_of_get?_eq_none hget]
    exact .refl _
  | some p => exact (Dict.perm_toList_of_get?_eq_some hget).flatMap_right _

theorem perm_edges_others (outline : Text → FileOutline) (l : Layout) (rel : Text)
    : edges outline l.toList ~ (l.get? rel).elim [] (Placed.edges outline)
        ++ edges outline (l.others rel) := by
  cases hget : l.get? rel with
  | none =>
    rw [others, Dict.filter_toList_of_get?_eq_none hget]
    exact .refl _
  | some p => exact (Dict.perm_toList_of_get?_eq_some hget).flatMap_right _

namespace Apart

variable {l : Layout} {nextId : NodeId}

theorem empty (nextId : NodeId) : Apart outline .empty nextId where
  pos := by simp
  le := by simp
  disjoint := by simp

theorem insert (h : Apart outline l nextId) (hpos : 0 < nextId) (rel content : Text)
    : Apart outline (l.insert rel ⟨nextId, content⟩) (nextId + (outline content).size) where
  pos := by
    intro rel' p hp
    rw [Dict.get?_insert] at hp
    split at hp
    . rw [← Option.some.inj hp]
      exact hpos
    . exact h.pos rel' p hp
  le := by
    intro rel' p hp
    rw [Dict.get?_insert] at hp
    split at hp
    . rw [← Option.some.inj hp]
      exact Nat.le_refl _
    . exact Nat.le_add_right_of_le (h.le rel' p hp)
  disjoint := by
    intro rel₁ rel₂ p₁ p₂ hp₁ hp₂ hne
    rw [Dict.get?_insert] at hp₁ hp₂
    split at hp₁
    . next heq₁ =>
      rw [if_neg (fun heq₂ => hne (heq₁.trans heq₂.symm))] at hp₂
      rw [← Option.some.inj hp₁]
      exact Or.inr (h.le rel₂ p₂ hp₂)
    . split at hp₂
      . rw [← Option.some.inj hp₂]
        exact Or.inl (h.le rel₁ p₁ hp₁)
      . exact h.disjoint rel₁ rel₂ p₁ p₂ hp₁ hp₂ hne

theorem rel_eq (h : Apart outline l nextId) {rel rel' : Text} {p p' : Placed}
    (hp : l.get? rel = some p) (hp' : l.get? rel' = some p') {id : NodeId} (hid : p.Owns outline id)
    (hid' : p'.Owns outline id)
    : rel = rel' := by
  by_contra hne
  have := h.disjoint rel rel' p p' hp hp' hne
  unfold Placed.Owns at *
  grind

theorem lt_of_owns (h : Apart outline l nextId) {rel : Text} {p : Placed} (hp : l.get? rel = some p)
    {id : NodeId} (hid : p.Owns outline id)
    : id < nextId := by
  have := h.le rel p hp
  unfold Placed.Owns at hid
  grind

end Apart

end Layout

/-! ## Resolved nodes -/

theorem map_named_filter {symbols : SymbolTable} {nodes : List GraphNode}
    {contents : List NamedNode} (h : nodes.map (·.named symbols) ~ contents.map some)
    (keep : NodeId → Prop) [DecidablePred keep]
    : (nodes.filter fun node => keep node.id).map (·.named symbols)
        ~
      (contents.filter fun content => keep content.id).map some := by
  have hid : ∀ node ∈ nodes, ∃ content, node.named symbols = some content
      ∧ content.id = node.id := by
    intro node hnode
    have hmem := h.mem_iff.mp (List.mem_map_of_mem hnode)
    have ⟨content, _, hcontent⟩ := List.mem_map.mp hmem
    have ⟨_, _, heq⟩ := Option.map_eq_some_iff.mp hcontent.symm
    exact ⟨content, hcontent.symm, by rw [← heq]⟩
  have hnodes : (nodes.filter fun node => keep node.id).map (·.named symbols)
      = (nodes.map (·.named symbols)).filter fun named => named.any fun content =>
        keep content.id := by
    rw [List.filter_map]
    congr 1
    apply List.filter_congr
    intro node hnode
    have ⟨content, hcontent, heq⟩ := hid node hnode
    simp [hcontent, heq]
  have hcontents : (contents.filter fun content => keep content.id).map some
      = (contents.map some).filter fun named => named.any fun content => keep content.id := by
    rw [List.filter_map]
    congr 1
  rw [hnodes, hcontents]
  exact h.filter _

theorem map_named_extends {symbols symbols' : SymbolTable} (hext : symbols.Extends symbols')
    {nodes : List GraphNode} {contents : List NamedNode}
    (h : nodes.map (·.named symbols) ~ contents.map some)
    : nodes.map (·.named symbols') ~ contents.map some := by
  refine .trans (.of_eq ?_) h
  apply List.map_congr_left
  intro node hnode
  have hmem := h.mem_iff.mp (List.mem_map_of_mem (f := (·.named symbols)) hnode)
  have ⟨content, _, hcontent⟩ := List.mem_map.mp hmem
  rw [← hcontent, GraphNode.named_of_extends hext hcontent.symm]

end HdlGraph
