import Mathlib.Data.List.Range
import Mathlib.Data.List.Nodup
import Mathlib.Logic.Relation

/-!
This module contains rose trees and their numbering in preorder: where each node of a forest ends up
when its nodes take consecutive ids and each one is placed under the id of its parent.
-/

inductive Rose (α : Type u) where
  | node (label : α) (children : List (Rose α))

namespace Rose

variable {α : Type u}

def label : Rose α → α
  | node label _ => label

def children : Rose α → List (Rose α)
  | node _ children => children

mutual

def size : Rose α → Nat
  | node _ children => 1 + sizeAll children

def sizeAll : List (Rose α) → Nat
  | [] => 0
  | t :: ts => size t + sizeAll ts

end

structure Placement (α : Type u) where
  parent : Nat
  id : Nat
  label : α

mutual

-- The nodes of a tree in preorder, numbered from `b`, with the root placed under `p`
def place (p b : Nat) : Rose α → List (Placement α)
  | node label children => ⟨p, b, label⟩ :: placeAll b (b + 1) children

def placeAll (p b : Nat) : List (Rose α) → List (Placement α)
  | [] => []
  | t :: ts => place p b t ++ placeAll p (b + size t) ts

end

theorem size_pos (t : Rose α) : 0 < t.size := by
  cases t
  simp only [size]
  omega

@[simp]
theorem sizeAll_nil : sizeAll ([] : List (Rose α)) = 0 := by simp only [sizeAll]

@[simp]
theorem sizeAll_cons (t : Rose α) (ts : List (Rose α))
    : sizeAll (t :: ts) = t.size + sizeAll ts := by
  simp only [sizeAll]

@[simp]
theorem placeAll_nil (p b : Nat) : placeAll p b ([] : List (Rose α)) = [] := by simp only [placeAll]

@[simp]
theorem placeAll_cons (p b : Nat) (t : Rose α) (ts : List (Rose α))
    : placeAll p b (t :: ts) = place p b t ++ placeAll p (b + t.size) ts := by
  simp only [placeAll]

mutual

theorem map_id_place (p b : Nat)
    : (t : Rose α) → (place p b t).map Placement.id = List.range' b t.size
  | node label children => by
    simp only [place, size, List.map_cons]
    rw [map_id_placeAll, Nat.add_comm 1, List.range'_succ]

theorem map_id_placeAll (p b : Nat)
    : (ts : List (Rose α)) → (placeAll p b ts).map Placement.id = List.range' b (sizeAll ts)
  | [] => by simp
  | t :: ts => by
    rw [placeAll_cons, List.map_append, map_id_place, map_id_placeAll, sizeAll_cons]
    simp

end

theorem id_mem_placeAll {p b : Nat} {ts : List (Rose α)} {x : Placement α}
    (hx : x ∈ placeAll p b ts)
    : b ≤ x.id ∧ x.id < b + sizeAll ts := by
  have : x.id ∈ (placeAll p b ts).map Placement.id := List.mem_map_of_mem hx
  rw [map_id_placeAll, List.mem_range'_1] at this
  exact this

mutual

theorem parent_place {p b : Nat} : {t : Rose α} → {x : Placement α} → x ∈ place p b t →
    x.parent = p ∧ x.id = b ∨ b ≤ x.parent ∧ x.parent < x.id
  | node label children, x, hx => by
    rw [place, List.mem_cons] at hx
    cases hx with
    | inl heq =>
      subst heq
      exact Or.inl ⟨rfl, rfl⟩
    | inr hx =>
      have := id_mem_placeAll hx
      cases parent_placeAll hx with
      | inl hparent => omega
      | inr hparent => omega

theorem parent_placeAll {p b : Nat} : {ts : List (Rose α)} → {x : Placement α} →
    x ∈ placeAll p b ts →
    x.parent = p ∨ b ≤ x.parent ∧ x.parent < x.id
  | [], x, hx => by simp at hx
  | t :: ts, x, hx => by
    rw [placeAll_cons, List.mem_append] at hx
    cases hx with
    | inl hx =>
      cases parent_place hx with
      | inl hparent => exact Or.inl hparent.1
      | inr hparent => exact Or.inr hparent
    | inr hx =>
      cases parent_placeAll hx with
      | inl hparent => exact Or.inl hparent
      | inr hparent => omega

end

mutual

def labels : Rose α → List α
  | node label children => label :: labelsAll children

def labelsAll : List (Rose α) → List α
  | [] => []
  | t :: ts => labels t ++ labelsAll ts

end

@[simp]
theorem labelsAll_nil : labelsAll ([] : List (Rose α)) = [] := by simp only [labelsAll]

@[simp]
theorem labelsAll_cons (t : Rose α) (ts : List (Rose α))
    : labelsAll (t :: ts) = t.labels ++ labelsAll ts := by
  simp only [labelsAll]

@[simp]
theorem labelsAll_append (ts ts' : List (Rose α))
    : labelsAll (ts ++ ts') = labelsAll ts ++ labelsAll ts' := by
  induction ts with
  | nil => simp
  | cons t ts ih => simp [ih]

theorem labelsAll_flatMap {β : Type v} (xs : List β) (f : β → List (Rose α))
    : labelsAll (xs.flatMap f) = xs.flatMap fun x => labelsAll (f x) := by
  induction xs with
  | nil => simp
  | cons x xs ih => simp [ih]

theorem labels_eq (t : Rose α) : t.labels = t.label :: labelsAll t.children := by
  cases t
  rw [labels, label, children]

theorem labels_subset_labelsAll {t : Rose α} {ts : List (Rose α)} (h : t ∈ ts)
    : t.labels ⊆ labelsAll ts := by
  induction ts with
  | nil => contradiction
  | cons u ts ih =>
    intro x hx
    rw [labelsAll_cons, List.mem_append]
    rcases List.mem_cons.mp h with rfl | h
    . exact Or.inl hx
    . exact Or.inr (ih h hx)

mutual

theorem map_label_place (p b : Nat) : (t : Rose α) → (place p b t).map Placement.label = t.labels
  | node label children => by
    simp only [place, labels, List.map_cons]
    rw [map_label_placeAll]

theorem map_label_placeAll (p b : Nat)
    : (ts : List (Rose α)) → (placeAll p b ts).map Placement.label = labelsAll ts
  | [] => by simp
  | t :: ts =>
    by rw [placeAll_cons, List.map_append, map_label_place, map_label_placeAll, labelsAll_cons]

end

theorem exists_place_subset {t : Rose α} {ts : List (Rose α)} (h : t ∈ ts) (p b : Nat)
    : ∃ b', place p b' t ⊆ placeAll p b ts := by
  induction ts generalizing b with
  | nil => simp at h
  | cons t' ts ih =>
    rw [placeAll_cons]
    cases List.mem_cons.mp h with
    | inl heq =>
      subst heq
      exact ⟨b, List.subset_append_left _ _⟩
    | inr h =>
      obtain ⟨b', hsub⟩ := ih h (b + t'.size)
      exact ⟨b', List.Subset.trans hsub (List.subset_append_right _ _)⟩

def Placement.shift (d : Nat) (x : Placement α) : Placement α := ⟨x.parent + d, x.id + d, x.label⟩

mutual

theorem place_shift (p b d : Nat)
    : (t : Rose α) → place (p + d) (b + d) t = (place p b t).map (Placement.shift d)
  | node label children => by
    have := placeAll_shift b (b + 1) d children
    rw [Nat.add_right_comm] at this
    simp only [place, List.map_cons, this]
    rfl

theorem placeAll_shift (p b d : Nat)
    : (ts : List (Rose α)) → placeAll (p + d) (b + d) ts = (placeAll p b ts).map (Placement.shift d)
  | [] => by simp
  | t :: ts => by
    have := placeAll_shift p (b + t.size) d ts
    rw [Nat.add_right_comm] at this
    rw [placeAll_cons, placeAll_cons, List.map_append, place_shift, this]

end

/-! The placements of a forest determine it if it is not placed under one of its own nodes. -/

theorem parent_ne_of_mem_placeAll {p b : Nat} (h : p < b) {ts : List (Rose α)} {x : Placement α}
    (hx : x ∈ placeAll b (b + 1) ts)
    : x.parent ≠ p := by
  cases parent_placeAll hx <;> omega

theorem map_label_filter_placeAll {p b : Nat} (h : p < b) (ts : List (Rose α))
    : ((placeAll p b ts).filter (·.parent = p)).map Placement.label = ts.map label := by
  induction ts generalizing b with
  | nil => simp
  | cons t ts ih =>
    obtain ⟨l, children⟩ := t
    have hbelow : (placeAll b (b + 1) children).filter (·.parent = p) = [] := by
      rw [List.filter_eq_nil_iff]
      intro x hx
      simpa using parent_ne_of_mem_placeAll h hx
    rw [placeAll_cons, place, List.filter_append, List.filter_cons_of_pos (by simp), hbelow,
      List.map_append, ih (Nat.lt_add_right _ h)]
    rfl

theorem forall_placeAll_iff {p b : Nat} (h : p < b) {r s : α → Prop} (ts : List (Rose α))
    : (∀ x ∈ placeAll p b ts, r x.label → x.parent = p ∧ s x.label)
        ↔ ∀ t ∈ ts, (r t.label → s t.label) ∧ ∀ a ∈ labelsAll t.children, ¬r a := by
  induction ts generalizing b with
  | nil => simp
  | cons t ts ih =>
    obtain ⟨l, children⟩ := t
    have hbelow : (∀ x ∈ placeAll b (b + 1) children, r x.label → x.parent = p ∧ s x.label)
        ↔ ∀ a ∈ labelsAll children, ¬r a := by
      rw [← map_label_placeAll b (b + 1) children, List.forall_mem_map]
      apply forall₂_congr
      intro x hx
      have hparent := parent_ne_of_mem_placeAll h hx
      simp [hparent]
    rw [placeAll_cons, place, List.forall_mem_append, List.forall_mem_cons, hbelow,
      ih (Nat.lt_add_right _ h), List.forall_mem_cons]
    simp [label, Rose.children]

theorem takeWhile_placeAll {p b b' : Nat} (h : p < b) (ts ts' : List (Rose α))
    : (placeAll b (b + 1) ts ++ placeAll p b' ts').takeWhile (fun x => x.parent ≠ p)
        = placeAll b (b + 1) ts := by
  rw [List.takeWhile_append_of_pos]
  . cases ts' with
    | nil => simp
    | cons t ts' =>
      cases t
      simp [place]
  . intro x hx
    simpa using parent_ne_of_mem_placeAll h hx

theorem placeAll_injective {p b : Nat} (h : p < b)
    : {ts ts' : List (Rose α)} → placeAll p b ts = placeAll p b ts' → ts = ts'
  | [], [], _ => rfl
  | [], node _ _ :: _, heq => by simp [place] at heq
  | node _ _ :: _, [], heq => by simp [place] at heq
  | node label children :: ts, node label' children' :: ts', heq => by
    simp only [placeAll_cons, place, List.cons_append, List.cons.injEq, Placement.mk.injEq,
      true_and] at heq
    obtain ⟨rfl, heq⟩ := heq
    have hplace : placeAll b (b + 1) children = placeAll b (b + 1) children' := by
      have htake := congrArg (List.takeWhile fun x => x.parent ≠ p) heq
      rwa [takeWhile_placeAll h, takeWhile_placeAll h] at htake
    have hchildren : children = children' := placeAll_injective (Nat.lt_succ_self b) hplace
    subst hchildren
    rw [placeAll_injective (Nat.lt_add_right _ h) (List.append_cancel_left heq)]

/-! ## Maps -/

mutual

def map {β : Type v} (f : α → β) : Rose α → Rose β
  | node label children => node (f label) (mapAll f children)

def mapAll {β : Type v} (f : α → β) : List (Rose α) → List (Rose β)
  | [] => []
  | t :: ts => map f t :: mapAll f ts

end

@[simp]
theorem label_map {β : Type v} (f : α → β) (t : Rose α) : (t.map f).label = f t.label := by
  cases t
  rw [map, label, label]

end Rose
