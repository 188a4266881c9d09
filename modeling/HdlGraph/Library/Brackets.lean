import HdlGraph.Library.Nesting
import Mathlib.Algebra.BigOperators.Group.List.Basic
import Mathlib.Algebra.Order.Ring.Int
import Mathlib.Data.List.Nodup

/-!
This module contains the depth of brackets in a list of letters. The kinds of brackets that count
are pairs of an opening and a closing letter.
-/

universe u

namespace Brackets

open Nesting

variable {α : Type u} [DecidableEq α]

def step (kinds : List (α × α)) (a : α) : Int :=
  if a ∈ kinds.map Prod.fst then 1 else if a ∈ kinds.map Prod.snd then -1 else 0

def rise (kinds : List (α × α)) (s : List α) : Int := (s.map (step kinds)).sum

def NeverBelow (kinds : List (α × α)) (d : Int) : List α → Prop
  | [] => True
  | a :: s => 0 ≤ d + step kinds a ∧ NeverBelow kinds (d + step kinds a) s

def NoneOutside (kinds : List (α × α)) (sep : α) (d : Int) : List α → Prop
  | [] => True
  | a :: s => (a = sep → d ≠ 0) ∧ NoneOutside kinds sep (d + step kinds a) s

structure Balanced (kinds : List (α × α)) (s : List α) : Prop where
  neverBelow : NeverBelow kinds 0 s
  rise_eq : rise kinds s = 0

def markOf (kinds : List (α × α)) (a : α) : Option (Mark (α × α)) :=
  match kinds.find? (·.1 = a) with
  | some k => some (.opens k)
  | none => (kinds.find? (·.2 = a)).map .closes

/-- Each closing bracket closes the one that was opened last, and none stays open. -/
def ProperlyNested (kinds : List (α × α)) (s : List α) : Prop :=
  Nested (fun _ _ => true) (s.filterMap (markOf kinds))

instance (kinds : List (α × α)) (s : List α) : Decidable (ProperlyNested kinds s) :=
  inferInstanceAs (Decidable (Nested _ _))

def NeverBelow.decidable (kinds : List (α × α))
    : (d : Int) → (s : List α) → Decidable (NeverBelow kinds d s)
  | _, [] => .isTrue trivial
  | d, a :: s =>
    have := NeverBelow.decidable kinds (d + step kinds a) s
    inferInstanceAs (Decidable (0 ≤ d + step kinds a ∧ NeverBelow kinds (d + step kinds a) s))

def NoneOutside.decidable (kinds : List (α × α)) (sep : α)
    : (d : Int) → (s : List α) → Decidable (NoneOutside kinds sep d s)
  | _, [] => .isTrue trivial
  | d, a :: s =>
    have := NoneOutside.decidable kinds sep (d + step kinds a) s
    inferInstanceAs (Decidable ((a = sep → d ≠ 0) ∧ NoneOutside kinds sep (d + step kinds a) s))

instance (kinds : List (α × α)) (d : Int) (s : List α) : Decidable (NeverBelow kinds d s) :=
  NeverBelow.decidable kinds d s

instance (kinds : List (α × α)) (sep : α) (d : Int) (s : List α)
    : Decidable (NoneOutside kinds sep d s) :=
  NoneOutside.decidable kinds sep d s

instance (kinds : List (α × α)) (s : List α) : Decidable (Balanced kinds s) :=
  decidable_of_iff (NeverBelow kinds 0 s ∧ rise kinds s = 0)
    ⟨fun h => ⟨h.1, h.2⟩, fun h => ⟨h.neverBelow, h.rise_eq⟩⟩

variable {kinds : List (α × α)} {sep : α}

@[simp]
theorem rise_nil : rise kinds [] = 0 := rfl

@[simp]
theorem rise_cons (a : α) (s : List α) : rise kinds (a :: s) = step kinds a + rise kinds s := by
  simp [rise]

@[simp]
theorem rise_append (s t : List α) : rise kinds (s ++ t) = rise kinds s + rise kinds t := by
  simp [rise]

theorem neverBelow_append {d : Int} (s t : List α)
    : NeverBelow kinds d (s ++ t)
        ↔ NeverBelow kinds d s ∧ NeverBelow kinds (d + rise kinds s) t := by
  induction s generalizing d with
  | nil => simp [NeverBelow]
  | cons a s ih => simp only [List.cons_append, NeverBelow, ih, rise_cons, and_assoc, add_assoc]

theorem Balanced.append {s t : List α} (hs : Balanced kinds s) (ht : Balanced kinds t)
    : Balanced kinds (s ++ t) := by
  constructor
  . rw [neverBelow_append, hs.rise_eq]
    exact ⟨hs.neverBelow, ht.neverBelow⟩
  . rw [rise_append, hs.rise_eq, ht.rise_eq]
    rfl

theorem noneOutside_append {d : Int} (s t : List α)
    : NoneOutside kinds sep d (s ++ t) ↔ NoneOutside kinds sep d s
        ∧ NoneOutside kinds sep (d + rise kinds s) t := by
  induction s generalizing d with
  | nil => simp [NoneOutside]
  | cons a s ih => simp only [List.cons_append, NoneOutside, ih, rise_cons, and_assoc, add_assoc]

theorem NeverBelow.rise_nonneg {d : Int} {s : List α} (h : NeverBelow kinds d s) (hd : 0 ≤ d)
    : 0 ≤ d + rise kinds s := by
  induction s generalizing d with
  | nil => simpa using hd
  | cons a s ih =>
    have := ih h.2 h.1
    rw [rise_cons]
    omega

theorem NeverBelow.noneOutside {d k : Int} {s : List α} (h : NeverBelow kinds d s)
    (hd : 0 ≤ d) (hk : 0 < k)
    : NoneOutside kinds sep (k + d) s := by
  induction s generalizing d with
  | nil => trivial
  | cons a s ih =>
    constructor
    . intro _
      omega
    . rw [add_assoc]
      exact ih h.2 h.1

theorem rise_eq_zero {s : List α} (h : ∀ a ∈ s, step kinds a = 0) : rise kinds s = 0 := by
  induction s with
  | nil => rfl
  | cons a s ih =>
    rw [rise_cons, h a List.mem_cons_self, ih fun b hb => h b (List.mem_cons_of_mem _ hb)]
    rfl

theorem exists_of_not_noneOutside {d : Int} {s : List α} (h : ¬NoneOutside kinds sep d s)
    : ∃ front back, s = front ++ sep :: back ∧ NoneOutside kinds sep d front
        ∧ d + rise kinds front = 0 := by
  induction s generalizing d with
  | nil => exact absurd trivial h
  | cons a s ih =>
    by_cases ha : a = sep → d ≠ 0
    . have ⟨front, back, heq, hfront, hrise⟩ := ih fun hs => h ⟨ha, hs⟩
      refine ⟨a :: front, back, by simp [heq], ⟨ha, hfront⟩, ?_⟩
      rw [rise_cons]
      omega
    . simp only [ne_eq, Classical.not_imp, Decidable.not_not] at ha
      exact ⟨[], s, by simp [ha.1], trivial, by simpa using ha.2⟩

theorem NeverBelow.add {kinds' kinds'' : List (α × α)}
    (hstep : ∀ a, step kinds'' a = step kinds a + step kinds' a) {d d' : Int} {s : List α}
    (h : NeverBelow kinds d s) (h' : NeverBelow kinds' d' s)
    : NeverBelow kinds'' (d + d') s := by
  induction s generalizing d d' with
  | nil => trivial
  | cons a s ih =>
    have heq : d + d' + step kinds'' a = (d + step kinds a) + (d' + step kinds' a) := by
      rw [hstep]
      omega
    constructor
    . have h₁ := h.1
      have h₂ := h'.1
      omega
    . rw [heq]
      exact ih h.2 h'.2

theorem rise_add {kinds' kinds'' : List (α × α)}
    (hstep : ∀ a, step kinds'' a = step kinds a + step kinds' a) (s : List α)
    : rise kinds'' s = rise kinds s + rise kinds' s := by
  induction s with
  | nil => rfl
  | cons a s ih =>
    rw [rise_cons, rise_cons, rise_cons, ih, hstep]
    omega

/-! ## Properly nested brackets -/

def Distinct (kinds : List (α × α)) : Prop := (kinds.map Prod.fst ++ kinds.map Prod.snd).Nodup

instance (kinds : List (α × α)) : Decidable (Distinct kinds) :=
  inferInstanceAs (Decidable (List.Nodup _))

section

variable {counted : List (α × α)} {k : α × α} {a : α}

omit [DecidableEq α] in
theorem mem_map_iff_of_nodup {f : α × α → α} (hnodup : (kinds.map f).Nodup)
    (hcounted : counted ⊆ kinds) (hk : k ∈ kinds)
    : f k ∈ counted.map f ↔ k ∈ counted := by
  constructor
  . intro hmem
    obtain ⟨k', hk', heq⟩ := List.mem_map.mp hmem
    rwa [← List.inj_on_of_nodup_map hnodup (hcounted hk') hk heq]
  . exact List.mem_map_of_mem

theorem not_mem_map_of_find? {f : α × α → α} (hcounted : counted ⊆ kinds)
    (h : kinds.find? (f · = a) = none)
    : a ∉ counted.map f := by
  rw [List.find?_eq_none] at h
  intro hmem
  obtain ⟨k, hk, heq⟩ := List.mem_map.mp hmem
  exact h k (hcounted hk) (by simpa using heq)

variable (hkinds : Distinct kinds) (hcounted : counted ⊆ kinds)
include hkinds hcounted

theorem step_of_opens (h : markOf kinds a = some (.opens k))
    : step counted a = if k ∈ counted then 1 else 0 := by
  unfold markOf at h
  split at h
  . next hfind =>
    cases h
    have hk := List.mem_of_find?_eq_some hfind
    have ha : k.1 = a := by simpa using List.find?_some hfind
    have hclose : k.1 ∉ counted.map Prod.snd := fun hmem =>
      List.disjoint_of_nodup_append hkinds (List.mem_map_of_mem hk)
        (List.map_subset _ hcounted hmem)
    rw [← ha, step, if_neg hclose]
    simp only [mem_map_iff_of_nodup (List.nodup_append.mp hkinds).1 hcounted hk]
  . simp at h

theorem step_of_closes (h : markOf kinds a = some (.closes k))
    : step counted a = if k ∈ counted then -1 else 0 := by
  unfold markOf at h
  split at h
  . cases h
  . obtain ⟨_, hfind, heq⟩ := Option.map_eq_some_iff.mp h
    cases heq
    have hk := List.mem_of_find?_eq_some hfind
    have ha : k.2 = a := by simpa using List.find?_some hfind
    have hopen : k.2 ∉ counted.map Prod.fst := fun hmem =>
      List.disjoint_of_nodup_append hkinds (List.map_subset _ hcounted hmem)
        (List.mem_map_of_mem hk)
    rw [← ha, step, if_neg hopen]
    simp only [mem_map_iff_of_nodup (List.nodup_append.mp hkinds).2.1 hcounted hk]

omit hkinds in
theorem step_of_none (h : markOf kinds a = none) : step counted a = 0 := by
  unfold markOf at h
  split at h
  . contradiction
  . next hopen =>
    have hclose := Option.map_eq_none_iff.mp h
    rw [step, if_neg (not_mem_map_of_find? hcounted hopen),
      if_neg (not_mem_map_of_find? hcounted hclose)]

theorem countP_of_enter {stack stack' : List (α × α)} {m : Mark (α × α)}
    (ha : markOf kinds a = some m) (h : enter (fun _ _ => true) stack m = some stack')
    : (stack'.countP (· ∈ counted) : Int) = stack.countP (· ∈ counted) + step counted a := by
  unfold enter at h
  split at h
  . next k =>
    cases h
    rw [step_of_opens hkinds hcounted ha, List.countP_cons]
    split <;> simp_all
  . contradiction
  . next k' stack k =>
    split at h
    . next heq =>
      cases h
      rw [step_of_closes hkinds hcounted ha, List.countP_cons, heq]
      split <;> simp_all
    . contradiction

theorem neverBelow_of_nest {stack : List (α × α)} {s : List α}
    (h : nest (fun _ _ => true) stack (s.filterMap (markOf kinds)) = some [])
    : NeverBelow counted (stack.countP (· ∈ counted)) s
        ∧ (stack.countP (· ∈ counted)) + rise counted s = 0 := by
  induction s generalizing stack with
  | nil =>
    cases Option.some.inj h
    exact ⟨trivial, rfl⟩
  | cons a s ih =>
    rw [NeverBelow, rise_cons, ← add_assoc]
    cases ha : markOf kinds a with
    | none =>
      rw [List.filterMap_cons_none ha] at h
      rw [step_of_none hcounted ha, add_zero]
      exact ⟨⟨Int.natCast_nonneg _, (ih h).1⟩, (ih h).2⟩
    | some m =>
      rw [List.filterMap_cons_some ha] at h
      obtain ⟨next, hnext, hrest⟩ := exists_of_nest_cons h
      rw [← countP_of_enter hkinds hcounted ha hnext]
      exact ⟨⟨Int.natCast_nonneg _, (ih hrest).1⟩, (ih hrest).2⟩

theorem ProperlyNested.balanced {s : List α} (h : ProperlyNested kinds s) : Balanced counted s := by
  obtain ⟨hbelow, hrise⟩ := neverBelow_of_nest hkinds hcounted h
  simp only [List.countP_nil, Nat.cast_zero, zero_add] at hbelow hrise
  exact ⟨hbelow, hrise⟩

end

end Brackets
