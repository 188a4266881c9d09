import HdlGraph.Library.Blocks
import HdlGraph.Parse.Extractor.Numbering

/-!
This module contains the top-level items of a file as blocks of ids: which edges leave the node of
the file, and which edges leave the node of an item.
-/

namespace HdlGraph

open Blocks ExtractM

namespace TopItem

def placements (root b : NodeId) : TopItem → List (Rose.Placement Declared)
  | declared o => o.place root b
  | module _ _ items => Rose.placeAll b (b + 1) items
  | .class o => o.place root b

def labelled : TopItem → Option (NodeKind Text)
  | declared o => some o.label.kind
  | module name _ _ => if name = [] then none else some (.module name)
  | .class o => some o.label.kind

theorem nodesAllAt_eq (root b : NodeId) (items : List TopItem)
    : nodesAllAt root b items = (place size b items).flatMap fun y => y.2.nodesAt root y.1 := by
  induction items generalizing b with
  | nil => rfl
  | cons item items ih => rw [nodesAllAt, place, List.flatMap_cons, ih]

theorem edgesAllAt_eq (root b : NodeId) (items : List TopItem)
    : edgesAllAt root b items = (place size b items).flatMap fun y => y.2.edgesAt root y.1 := by
  induction items generalizing b with
  | nil => rfl
  | cons item items ih => rw [edgesAllAt, place, List.flatMap_cons, ih]

theorem target_of_source_eq {root b : NodeId} (h : root < b) {item : TopItem} {e : Edge}
    (he : e ∈ item.edgesAt root b) (hsource : e.source = root)
    : e.target = b ∧ item.labelled.isSome := by
  have hplace : ∀ {o : Outline}, e ∈ edgesOf (o.place root b) → e.target = b := by
    intro o ho
    obtain ⟨x, hx, heq⟩ := List.mem_map.mp ho
    subst heq
    have hroot : x.parent = root := hsource
    cases Rose.parent_place hx with
    | inl hparent => exact hparent.2
    | inr hparent => exact absurd h (Nat.not_lt.mpr (hroot ▸ hparent.1))
  cases item with
  | declared o => exact ⟨hplace he, rfl⟩
  | «class» o =>
    refine ⟨?_, rfl⟩
    rw [edgesAt, List.mem_append, List.mem_singleton] at he
    cases he with
    | inl he => exact hplace he
    | inr heq => rw [heq]
  | module name pos items =>
    rw [edgesAt, List.mem_append] at he
    cases he with
    | inl he =>
      obtain ⟨x, hx, heq⟩ := List.mem_map.mp he
      subst heq
      exact absurd hsource (Rose.parent_ne_of_mem_placeAll h hx)
    | inr he =>
      split at he
      . simp at he
      . next hname =>
        rw [List.mem_singleton] at he
        rw [he, labelled, if_neg hname]
        exact ⟨rfl, rfl⟩

theorem filter_source_module {root b : NodeId} (h : root < b) (name : Text) (pos : Position)
    (items : List Outline)
    : ((TopItem.module name pos items).edgesAt root b).filter (·.source = root)
        = if name = [] then [] else [⟨root, b, .contains⟩] := by
  have hitems : (edgesOf (Rose.placeAll b (b + 1) items)).filter (·.source = root) = [] := by
    rw [List.filter_eq_nil_iff]
    intro e he
    obtain ⟨x, hx, heq⟩ := List.mem_map.mp he
    subst heq
    simpa using Rose.parent_ne_of_mem_placeAll h hx
  rw [edgesAt, List.filter_append, hitems, List.nil_append]
  split <;> simp

theorem filter_source_item {root b : NodeId} (h : root < b) (item : TopItem)
    : (item.edgesAt root b).filter (·.source = b)
        = edgesOf ((item.placements root b).filter (·.parent = b)) := by
  have hplace : ∀ xs : List (Rose.Placement Declared),
      (edgesOf xs).filter (·.source = b) = edgesOf (xs.filter (·.parent = b)) := by
    intro xs
    rw [edgesOf, edgesOf, List.filter_map]
    rfl
  cases item with
  | declared o => exact hplace _
  | «class» o =>
    rw [edgesAt, List.filter_append, hplace, placements]
    simp [Nat.ne_of_lt h]
  | module name pos items =>
    rw [edgesAt, List.filter_append, hplace, placements]
    split <;> simp [Nat.ne_of_lt h]

theorem filter_source_ne_root {root b : NodeId} (h : root < b) (item : TopItem)
    : (item.edgesAt root b).filter (·.source ≠ root)
        = edgesOf (Rose.placeAll b (b + 1) item.outline.children) := by
  have hbelow : ∀ os : List Outline,
      (edgesOf (Rose.placeAll b (b + 1) os)).filter (·.source ≠ root)
      = edgesOf (Rose.placeAll b (b + 1) os) := by
    intro os
    rw [List.filter_eq_self]
    intro e he
    obtain ⟨x, hx, rfl⟩ := List.mem_map.mp he
    simpa using Rose.parent_ne_of_mem_placeAll h hx
  have hplace : ∀ o : Outline, (edgesOf (o.place root b)).filter (·.source ≠ root)
      = edgesOf (Rose.placeAll b (b + 1) o.children) := by
    intro o
    cases o with
    | node d children =>
      rw [Rose.place, edgesOf, List.map_cons, List.filter_cons_of_neg (by simp)]
      exact hbelow children
  cases item with
  | declared o => exact hplace o
  | «class» o =>
    rw [edgesAt, List.filter_append, hplace]
    simp [outline]
  | module name pos items =>
    rw [edgesAt, List.filter_append, hbelow]
    split <;> simp [outline, Rose.children]

end TopItem

namespace FileOutline

def placedItems (b : NodeId) (file : FileOutline) : List (Nat × TopItem) :=
  place TopItem.size (b + 1) file.items

theorem lt_of_mem_placedItems {b : NodeId} {file : FileOutline} {y : Nat × TopItem}
    (hy : y ∈ file.placedItems b)
    : b < y.1 :=
  le_of_mem_place hy

theorem map_snd_placedItems (file : FileOutline) (b : NodeId)
    : (file.placedItems b).map Prod.snd = file.items :=
  map_snd_place _ _

theorem placedItems_pairwise (file : FileOutline) (b : NodeId)
    : (file.placedItems b).Pairwise (Disjoint TopItem.size) :=
  place_pairwise _ _

theorem edgesAt_eq (b : NodeId) (file : FileOutline)
    : file.edgesAt b = (file.placedItems b).flatMap fun y => y.2.edgesAt b y.1 :=
  TopItem.edgesAllAt_eq b (b + 1) file.items

theorem nodesAt_eq (b : NodeId) (file : FileOutline)
    : file.nodesAt b = file.rootNode b :: (file.placedItems b).flatMap fun y =>
        y.2.nodesAt b y.1 := by
  rw [nodesAt, TopItem.nodesAllAt_eq]
  rfl

theorem filter_source_root (b : NodeId) (file : FileOutline)
    : (file.edgesAt b).filter (·.source = b)
        = (file.placedItems b).flatMap fun y => (y.2.edgesAt b y.1).filter (·.source = b) := by
  rw [edgesAt_eq, List.filter_flatMap]

theorem filter_source_placedItem {b : NodeId} {file : FileOutline} {y : Nat × TopItem}
    (hy : y ∈ file.placedItems b)
    : (file.edgesAt b).filter (·.source = y.1)
        = edgesOf ((y.2.placements b y.1).filter (·.parent = y.1)) := by
  have hlt := lt_of_mem_placedItems hy
  rw [← TopItem.filter_source_item hlt, edgesAt_eq]
  apply filter_flatMap_of_covers (place_pairwise _ _) _ hy
  . exact ⟨Nat.le_refl _, Nat.lt_add_of_pos_right y.2.outline.size_pos⟩
  . intro z hz e he hsource
    have hends := TopItem.mem_edgesAt (lt_of_mem_placedItems hz) he
    unfold Covers
    grind

theorem filter_source_ne_root (b : NodeId) (file : FileOutline)
    : (file.edgesAt b).filter (·.source ≠ b)
        = (file.placedItems b).flatMap fun y =>
          edgesOf (Rose.placeAll y.1 (y.1 + 1) y.2.outline.children) := by
  rw [edgesAt_eq, List.filter_flatMap]
  apply List.flatMap_congr
  intro y hy
  exact TopItem.filter_source_ne_root (lt_of_mem_placedItems hy) y.2

theorem nodup_targets (b : NodeId) (file : FileOutline)
    : (((file.edgesAt b).filter (·.source ≠ b)).map Edge.target).Nodup := by
  have htargets : ∀ y : Nat × TopItem,
      (edgesOf (Rose.placeAll y.1 (y.1 + 1) y.2.outline.children)).map Edge.target
        = List.range' (y.1 + 1) (Rose.sizeAll y.2.outline.children) := by
    intro y
    rw [map_target_edgesOf, Rose.map_id_placeAll]
  have hpairwise := file.placedItems_pairwise b
  rw [filter_source_ne_root, List.map_flatMap, List.nodup_flatMap]
  constructor
  . intro y _
    rw [htargets]
    exact List.nodup_range' ..
  . refine hpairwise.imp ?_
    intro y z hdisjoint id hy hz
    have hcovers : ∀ y : Nat × TopItem,
        id ∈ (edgesOf (Rose.placeAll y.1 (y.1 + 1) y.2.outline.children)).map Edge.target →
          Covers TopItem.size y id := by
      intro y hid
      rw [htargets, List.mem_range'_1] at hid
      have hsize : y.2.size = 1 + Rose.sizeAll y.2.outline.children := by
        rw [TopItem.size]
        cases y.2.outline
        rw [Rose.size]
        rfl
      unfold Covers
      omega
    exact not_disjoint_of_covers (hcovers y hy) (hcovers z hz) hdisjoint

theorem source_eq_of_target_eq {b : NodeId} {file : FileOutline} {e e' : Edge}
    (he : e ∈ file.edgesAt b) (he' : e' ∈ file.edgesAt b) (htarget : e.target = e'.target)
    : e.source = e'.source := by
  -- an edge from the file does not enter what is below an item
  have hroot : ∀ {e e' : Edge}, e ∈ file.edgesAt b → e' ∈ file.edgesAt b → e.target = e'.target →
      e.source = b →
      e'.source = b := by
    intro e e' he he' htarget hsource
    by_contra hne
    rw [edgesAt_eq] at he he'
    obtain ⟨y, hy, he⟩ := List.mem_flatMap.mp he
    obtain ⟨z, hz, he'⟩ := List.mem_flatMap.mp he'
    have hends := TopItem.mem_edgesAt (lt_of_mem_placedItems hy) he
    have hends' := TopItem.mem_edgesAt (lt_of_mem_placedItems hz) he'
    have hpairwise := file.placedItems_pairwise b
    obtain rfl := eq_of_covers hpairwise hy hz (n := e.target) ⟨hends.2.2.1, hends.2.2.2⟩
      (by rw [htarget]; exact ⟨hends'.2.2.1, hends'.2.2.2⟩)
    have hitem := (TopItem.target_of_source_eq (lt_of_mem_placedItems hy) he hsource).1
    have hlt := hends'.2.1
    rcases hends'.1 with hsource' | hle
    . exact hne hsource'
    . rw [← htarget, hitem] at hlt
      exact absurd hle (Nat.not_le.mpr hlt)
  by_cases hsource : e.source = b
  . rw [hsource, hroot he he' htarget hsource]
  . have hsource' : e'.source ≠ b := fun h => hsource (hroot he' he htarget.symm h)
    have hmem : ∀ {e}, e ∈ file.edgesAt b → e.source ≠ b →
        e ∈ (file.edgesAt b).filter (·.source ≠ b) :=
      fun he hsource => List.mem_filter.mpr ⟨he, decide_eq_true hsource⟩
    rw [List.inj_on_of_nodup_map (file.nodup_targets b) (hmem he hsource)
      (hmem he' hsource') htarget]

end FileOutline
end HdlGraph
