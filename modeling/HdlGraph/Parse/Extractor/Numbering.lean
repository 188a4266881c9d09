import HdlGraph.Parse.Extractor.Extract
import Mathlib.Data.List.Perm.Subperm

/-!
This module contains what the numbering of a file gives for any outline: its ids are distinct and
lie in the block that starts at the extractor's counter, its edges go from smaller to larger ids of
that block, and a file that is extracted at another counter differs by a shift only.
-/

namespace HdlGraph

open ExtractM
open scoped List

def NamedNode.shift (d : Nat) (node : NamedNode) : NamedNode := { node with id := node.id + d }

def Edge.shift (d : Nat) (e : Edge) : Edge :=
  { e with source := e.source + d, target := e.target + d }

theorem map_id_nodesOf (xs : List (Rose.Placement Declared))
    : (nodesOf xs).map NamedNode.id = xs.map Rose.Placement.id := by
  simp [nodesOf, Declared.namedNode]

theorem map_target_edgesOf (xs : List (Rose.Placement Declared))
    : (edgesOf xs).map Edge.target = xs.map Rose.Placement.id := by
  simp [edgesOf]

theorem nodesOf_shift (d : Nat) (xs : List (Rose.Placement Declared))
    : nodesOf (xs.map (Rose.Placement.shift d)) = (nodesOf xs).map (NamedNode.shift d) := by
  simp [nodesOf, Rose.Placement.shift, Declared.namedNode, NamedNode.shift]

theorem edgesOf_shift (d : Nat) (xs : List (Rose.Placement Declared))
    : edgesOf (xs.map (Rose.Placement.shift d)) = (edgesOf xs).map (Edge.shift d) := by
  simp [edgesOf, Rose.Placement.shift, Edge.shift]

theorem mem_edgesOf_placeAll {p b : NodeId} {os : List Outline} (h : p < b) {e : Edge}
    (he : e ∈ edgesOf (Rose.placeAll p b os))
    : (e.source = p ∨ b ≤ e.source) ∧ e.source < e.target ∧ b ≤ e.target
        ∧ e.target < b + Rose.sizeAll os := by
  have ⟨x, hx, heq⟩ := List.mem_map.mp he
  have hid := Rose.id_mem_placeAll hx
  rw [← heq]
  cases Rose.parent_placeAll hx <;> grind

namespace TopItem

theorem ids_nodesAt (root b : NodeId) (item : TopItem)
    : (item.nodesAt root b).map NamedNode.id <+~ List.range' b item.size := by
  cases item with
  | declared o =>
    simp only [nodesAt, size, outline, map_id_nodesOf, Rose.map_id_place]
    exact List.Subperm.refl _
  | «class» o =>
    simp only [nodesAt, size, outline, map_id_nodesOf, Rose.map_id_place]
    exact List.Subperm.refl _
  | module name pos items =>
    simp only [nodesAt, size, outline, Rose.size, List.map_append, map_id_nodesOf,
      Rose.map_id_placeAll]
    rw [Nat.add_comm 1, List.range'_succ]
    split
    . rw [List.map_nil, List.append_nil]
      exact List.Subperm.cons_right _ (List.Subperm.refl _)
    . exact (List.perm_append_singleton _ _).subperm

theorem mem_edgesAt {root b : NodeId} {item : TopItem} (h : root < b) {e : Edge}
    (he : e ∈ item.edgesAt root b)
    : (e.source = root ∨ b ≤ e.source) ∧ e.source < e.target ∧ b ≤ e.target
        ∧ e.target < b + item.size := by
  have hplace : ∀ {o : Outline}, e ∈ edgesOf (o.place root b) →
      (e.source = root ∨ b ≤ e.source) ∧ e.source < e.target ∧ b ≤ e.target
      ∧ e.target < b + o.size := by
    intro o ho
    have hsingle : e ∈ edgesOf (Rose.placeAll root b [o]) := by simpa using ho
    simpa using mem_edgesOf_placeAll h hsingle
  cases item with
  | declared o => exact hplace he
  | «class» o =>
    have hsize := o.size_pos
    rw [edgesAt, List.mem_append, List.mem_singleton] at he
    cases he with
    | inl he => exact hplace he
    | inr heq =>
      subst heq
      simp only [size, outline]
      grind
  | module name pos items =>
    simp only [edgesAt, size, outline, Rose.size, List.mem_append] at *
    cases he with
    | inl he =>
      have := mem_edgesOf_placeAll (Nat.lt_succ_self b) he
      grind
    | inr he =>
      split at he
      . simp at he
      . rw [List.mem_singleton] at he
        subst he
        simp only [true_or, true_and]
        grind

theorem ids_nodesAllAt (root b : NodeId) (items : List TopItem)
    : (nodesAllAt root b items).map NamedNode.id <+~ List.range' b (sizeAll items) := by
  induction items generalizing b with
  | nil => exact List.Subperm.refl _
  | cons item items ih =>
    rw [nodesAllAt, List.map_append, sizeAll_cons, ← List.range'_append_1]
    exact (item.ids_nodesAt root b).append (ih (b + item.size))

theorem mem_edgesAllAt {root b : NodeId} {items : List TopItem} (h : root < b) {e : Edge}
    (he : e ∈ edgesAllAt root b items)
    : (e.source = root ∨ b ≤ e.source) ∧ e.source < e.target ∧ b ≤ e.target
        ∧ e.target < b + sizeAll items := by
  induction items generalizing b with
  | nil => simp [edgesAllAt] at he
  | cons item items ih =>
    rw [edgesAllAt, List.mem_append] at he
    rw [sizeAll_cons]
    cases he with
    | inl he =>
      have := mem_edgesAt h he
      grind
    | inr he =>
      have := ih (Nat.lt_add_right item.size h) he
      grind

theorem nodesAt_shift (d root b : NodeId) (item : TopItem)
    : item.nodesAt (root + d) (b + d) = (item.nodesAt root b).map (NamedNode.shift d) := by
  cases item with
  | declared o => rw [nodesAt, nodesAt, Rose.place_shift, nodesOf_shift]
  | «class» o => rw [nodesAt, nodesAt, Rose.place_shift, nodesOf_shift]
  | module name pos items =>
    rw [nodesAt, nodesAt, Nat.add_right_comm, Rose.placeAll_shift, nodesOf_shift, List.map_append]
    split <;> rfl

theorem edgesAt_shift (d root b : NodeId) (item : TopItem)
    : item.edgesAt (root + d) (b + d) = (item.edgesAt root b).map (Edge.shift d) := by
  cases item with
  | declared o => rw [edgesAt, edgesAt, Rose.place_shift, edgesOf_shift]
  | «class» o =>
    rw [edgesAt, edgesAt, Rose.place_shift, edgesOf_shift, List.map_append]
    rfl
  | module name pos items =>
    rw [edgesAt, edgesAt, Nat.add_right_comm, Rose.placeAll_shift, edgesOf_shift, List.map_append]
    split <;> rfl

theorem nodesAllAt_shift (d root b : NodeId) (items : List TopItem)
    : nodesAllAt (root + d) (b + d) items = (nodesAllAt root b items).map (NamedNode.shift d) := by
  induction items generalizing b with
  | nil => rfl
  | cons item items ih =>
    rw [nodesAllAt, nodesAllAt, nodesAt_shift, Nat.add_right_comm, ih, List.map_append]

theorem edgesAllAt_shift (d root b : NodeId) (items : List TopItem)
    : edgesAllAt (root + d) (b + d) items = (edgesAllAt root b items).map (Edge.shift d) := by
  induction items generalizing b with
  | nil => rfl
  | cons item items ih =>
    rw [edgesAllAt, edgesAllAt, edgesAt_shift, Nat.add_right_comm, ih, List.map_append]

end TopItem

namespace FileOutline

theorem size_pos (file : FileOutline) : 0 < file.size := by
  unfold size
  omega

theorem ids_nodesAt (b : NodeId) (file : FileOutline)
    : (file.nodesAt b).map NamedNode.id <+~ List.range' b file.size := by
  rw [nodesAt, size, List.map_cons, Nat.add_comm 1, List.range'_succ]
  exact (List.subperm_cons b).mpr (TopItem.ids_nodesAllAt b (b + 1) file.items)

theorem ids_nodup (b : NodeId) (file : FileOutline)
    : ((file.nodesAt b).map NamedNode.id).Nodup := by
  have ⟨ids, hperm, hsub⟩ := file.ids_nodesAt b
  rw [← hperm.nodup_iff]
  exact hsub.nodup (List.nodup_range' ..)

theorem id_mem_nodesAt {b : NodeId} {file : FileOutline} {node : NamedNode}
    (hnode : node ∈ file.nodesAt b)
    : b ≤ node.id ∧ node.id < b + file.size := by
  have := (file.ids_nodesAt b).subset (List.mem_map_of_mem hnode)
  rwa [List.mem_range'_1] at this

theorem mem_edgesAt {b : NodeId} {file : FileOutline} {e : Edge} (he : e ∈ file.edgesAt b)
    : b ≤ e.source ∧ e.source < e.target ∧ e.target < b + file.size := by
  have := TopItem.mem_edgesAllAt (Nat.lt_succ_self b) he
  unfold size
  grind

theorem nodesAt_shift (d b : NodeId) (file : FileOutline)
    : file.nodesAt (b + d) = (file.nodesAt b).map (NamedNode.shift d) := by
  rw [nodesAt, nodesAt, Nat.add_right_comm, TopItem.nodesAllAt_shift, List.map_cons]
  rfl

theorem edgesAt_shift (d b : NodeId) (file : FileOutline)
    : file.edgesAt (b + d) = (file.edgesAt b).map (Edge.shift d) := by
  rw [edgesAt, edgesAt, Nat.add_right_comm, TopItem.edgesAllAt_shift]

end FileOutline

namespace GraphExtractor

theorem Extracts.map_id {ex : GraphExtractor} {file : FileOutline}
    {result : (List GraphNode × List Edge) × GraphExtractor} (h : Extracts ex file result)
    : result.1.1.map GraphNode.id = (file.nodesAt ex.nextId).map NamedNode.id := by
  have hid : ∀ (symbols : SymbolTable) (node : GraphNode) (content : NamedNode),
      node.named symbols = some content → node.id = content.id := by
    intro symbols node content hnode
    have ⟨_, _, heq⟩ := Option.map_eq_some_iff.mp hnode
    rw [← heq]
  have hnodes := h.nodes
  generalize result.1.1 = nodes at *
  generalize file.nodesAt ex.nextId = contents at *
  induction nodes generalizing contents with
  | nil => cases contents <;> simp_all
  | cons node nodes ih =>
    cases contents with
    | nil => simp at hnodes
    | cons content contents =>
      rw [List.map_cons, List.map_cons, List.cons.injEq] at hnodes
      rw [List.map_cons, List.map_cons, hid _ _ _ hnodes.1, ih contents hnodes.2]

end GraphExtractor
end HdlGraph
