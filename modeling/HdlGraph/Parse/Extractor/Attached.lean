import HdlGraph.Parse.Extractor.Tree

/-!
This module contains which nodes of a file are reachable from its `SourceFile` node: all of them,
unless a module without a name stands at the top of the file and declares something.
-/

namespace HdlGraph

open scoped List

def Reaches (edges : List Edge) : NodeId → NodeId → Prop :=
  Relation.ReflTransGen fun source target => ∃ e ∈ edges, e.source = source ∧ e.target = target

namespace Reaches

variable {edges edges' : List Edge} {start id : NodeId}

theorem mono (h : Reaches edges start id) (hsub : ∀ e ∈ edges, e ∈ edges')
    : Reaches edges' start id := by
  refine Relation.ReflTransGen.mono ?_ _ _ h
  rintro source target ⟨e, he, hends⟩
  exact ⟨e, hsub e he, hends⟩

theorem within {S : NodeId → Prop} (h : Reaches edges start id) (hstart : S start)
    (hclosed : ∀ e ∈ edges, S e.source → S e.target ∧ e ∈ edges')
    : S id ∧ Reaches edges' start id := by
  induction h with
  | refl => exact ⟨hstart, .refl⟩
  | tail _ hstep ih =>
    obtain ⟨e, he, rfl, rfl⟩ := hstep
    obtain ⟨htarget, he'⟩ := hclosed e he ih.1
    exact ⟨htarget, ih.2.tail ⟨e, he', rfl, rfl⟩⟩

end Reaches

namespace TopItem

open ExtractM

def Attached : TopItem → Prop
  | module name _ items => name ≠ [] ∨ items = []
  | _ => True

theorem rooted_or_class {item : TopItem} (h : item.Attached)
    : item.Rooted ∨ ∃ o, item = .class o := by
  cases item with
  | declared o => exact Or.inl trivial
  | module name pos items => exact Or.inl h
  | «class» o => exact Or.inr ⟨o, rfl⟩

theorem mem_targets_of_attached {item : TopItem} (h : item.Attached) {root b id : NodeId}
    (hid : id ∈ (item.nodesAt root b).map NamedNode.id)
    : id ∈ (item.edgesAt root b).map Edge.target := by
  obtain hrooted | ⟨o, rfl⟩ := rooted_or_class h
  . exact (targets_of_rooted hrooted root b).mem_iff.mpr hid
  . rw [nodesAt, map_id_nodesOf, ← map_target_edgesOf] at hid
    rw [edgesAt, List.map_append]
    exact List.mem_append_left _ hid

theorem source_of_attached {item : TopItem} (h : item.Attached) {root b : NodeId} {e : Edge}
    (he : e ∈ item.edgesAt root b)
    : e.source = root ∨ e.source ∈ (item.nodesAt root b).map NamedNode.id := by
  obtain hrooted | ⟨o, rfl⟩ := rooted_or_class h
  . exact source_of_rooted hrooted he
  . rw [edgesAt, List.mem_append, List.mem_singleton] at he
    cases he with
    | inl he => exact source_of_rooted (show (TopItem.declared o).Rooted from trivial) he
    | inr heq => exact Or.inl (congrArg Edge.source heq)

theorem mem_targetsAll_of_attached {items : List TopItem} (h : ∀ item ∈ items, item.Attached)
    {root b id : NodeId} (hid : id ∈ (nodesAllAt root b items).map NamedNode.id)
    : id ∈ (edgesAllAt root b items).map Edge.target := by
  induction items generalizing b with
  | nil => simp [nodesAllAt] at hid
  | cons item items ih =>
    rw [nodesAllAt, List.map_append, List.mem_append] at hid
    rw [edgesAllAt, List.map_append, List.mem_append]
    cases hid with
    | inl hid => exact Or.inl (mem_targets_of_attached (h item List.mem_cons_self) hid)
    | inr hid => exact Or.inr (ih (fun item' hitem => h item' (List.mem_cons_of_mem _ hitem)) hid)

theorem sourceAll_of_attached {items : List TopItem} (h : ∀ item ∈ items, item.Attached)
    {root b : NodeId} {e : Edge} (he : e ∈ edgesAllAt root b items)
    : e.source = root ∨ e.source ∈ (nodesAllAt root b items).map NamedNode.id := by
  induction items generalizing b with
  | nil => simp [edgesAllAt] at he
  | cons item items ih =>
    rw [edgesAllAt, List.mem_append] at he
    rw [nodesAllAt, List.map_append, List.mem_append]
    cases he with
    | inl he =>
      have := source_of_attached (h item List.mem_cons_self) he
      grind
    | inr he =>
      have := ih (fun item' hitem => h item' (List.mem_cons_of_mem _ hitem)) he
      grind

end TopItem

namespace FileOutline

open TopItem

def Attached (file : FileOutline) : Prop := ∀ item ∈ file.items, item.Attached

theorem reaches_of_attached {file : FileOutline} (h : file.Attached) {b id : NodeId}
    (hid : id ∈ (file.nodesAt b).map NamedNode.id)
    : Reaches (file.edgesAt b) b id := by
  have hids : (file.nodesAt b).map NamedNode.id
      = b :: (nodesAllAt b (b + 1) file.items).map NamedNode.id := rfl
  refine reachable_of_parents ?_ ?_ ?_ id hid
  . intro e he
    exact (mem_edgesAt he).2.1
  . intro e he
    rw [hids, List.mem_cons]
    exact sourceAll_of_attached h he
  . intro id hid hne
    rw [hids, List.mem_cons] at hid
    exact List.mem_map.mp (mem_targetsAll_of_attached h (hid.resolve_left hne))

theorem mem_block_of_nameless {b : NodeId} {file : FileOutline} {before after : List TopItem}
    {pos : Position} {items : List Outline}
    (h : file.items = before ++ .module [] pos items :: after) {e : Edge} (he : e ∈ file.edgesAt b)
    (htarget : b + 1 + sizeAll before ≤ e.target
      ∧ e.target < b + 1 + sizeAll before + (TopItem.module [] pos items).size)
    : b + 1 + sizeAll before ≤ e.source := by
  have hlt : b < b + 1 + sizeAll before := by grind
  rw [edgesAt_split b h, List.mem_append, List.mem_append] at he
  rcases he with he | he | he
  . have := mem_edgesAllAt (Nat.lt_succ_self b) he
    grind
  . rw [TopItem.edgesAt, if_pos rfl, List.append_nil] at he
    have := mem_edgesOf_placeAll (Nat.lt_succ_self _) he
    grind
  . have := mem_edgesAllAt (Nat.lt_add_right _ hlt) he
    grind

theorem attached_of_reaches {file : FileOutline} {b : NodeId}
    (h : ∀ id ∈ (file.nodesAt b).map NamedNode.id, Reaches (file.edgesAt b) b id)
    : file.Attached := by
  intro item hitem
  cases item with
  | declared o => trivial
  | «class» o => trivial
  | module name pos items =>
    by_contra hnot
    simp only [TopItem.Attached, not_or, ne_eq, not_not] at hnot
    obtain ⟨rfl, hitems⟩ := hnot
    obtain ⟨o, os, rfl⟩ := List.exists_cons_of_ne_nil hitems
    obtain ⟨before, after, hsplit⟩ := List.append_of_mem hitem
    have hsize := o.size_pos
    have hsizes : (TopItem.module [] pos (o :: os)).size = 1 + (o.size + Rose.sizeAll os) := by
      simp [TopItem.size, TopItem.outline, Rose.size]
    -- The first item of the module has a node
    have hid : b + 1 + sizeAll before + 1 ∈ (file.nodesAt b).map NamedNode.id := by
      rw [nodesAt_split b hsplit, TopItem.nodesAt]
      simp only [List.map_cons, List.map_append, List.mem_cons, List.mem_append, map_id_nodesOf,
        Rose.map_id_placeAll, List.mem_range'_1, Rose.sizeAll_cons]
      grind
    -- A path from the file stays out of the block
    have hout := Reaches.within (h _ hid)
      (S := fun id => ¬(b + 1 + sizeAll before ≤ id
        ∧ id < b + 1 + sizeAll before + (TopItem.module [] pos (o :: os)).size))
      (by grind) (by
        intro e he hsource
        refine ⟨?_, he⟩
        intro htarget
        have hfrom := mem_block_of_nameless hsplit he htarget
        have hlt := (mem_edgesAt he).2.1
        grind)
    grind

end FileOutline
end HdlGraph
