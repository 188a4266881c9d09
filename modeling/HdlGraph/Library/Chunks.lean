import Mathlib.Data.List.Flatten
import Mathlib.Data.List.Perm.Subperm
import Mathlib.Data.Set.Function

/-!
This module contains flat maps that are compared chunk by chunk.
-/

namespace Chunks

open scoped List

universe u v

variable {α : Type u} {β : Type v}

theorem flatMap_perm_iff {l : List α} {f e : α → List β} (h : ∀ x ∈ l, f x <+ e x)
    : l.flatMap f ~ l.flatMap e ↔ ∀ x ∈ l, f x = e x := by
  constructor
  . intro hperm
    induction l with
    | nil => simp
    | cons a l ih =>
      rw [List.forall_mem_cons] at h
      have hrest : l.flatMap f <+ l.flatMap e := List.Sublist.flatMap_right l h.2
      have hlength := hperm.length_eq
      simp only [List.flatMap_cons, List.length_append] at hlength
      have hle := h.1.length_le
      have hle' := hrest.length_le
      have hhead : f a = e a := h.1.eq_of_length (by omega)
      have htail : l.flatMap f = l.flatMap e := hrest.eq_of_length (by omega)
      exact List.forall_mem_cons.mpr ⟨hhead, ih h.2 (.of_eq htail)⟩
  . intro heq
    exact .of_eq (List.flatMap_congr heq)

theorem flatMap_filter (l : List α) (p : α → Prop) [DecidablePred p] (f : α → List β)
    : (l.filter fun a => p a).flatMap f = l.flatMap fun a => if p a then f a else [] := by
  induction l with
  | nil => rfl
  | cons a l ih =>
    rw [List.filter_cons, List.flatMap_cons, ← ih]
    by_cases ha : p a <;> simp [ha]

theorem filter_perm_iff {p q : α → Bool} {l : List α} (h : ∀ a ∈ l, q a → p a) (f : α → β)
    : (l.filter q).map f ~ (l.filter p).map f ↔ ∀ a ∈ l, p a → q a := by
  have hflat : ∀ r : α → Bool, (l.filter r).map f = l.flatMap fun a =>
    if r a then [f a] else [] := by
    intro r
    rw [List.map_eq_flatMap, ← flatMap_filter]
    simp only [Bool.decide_eq_true]
  have hchunk : ∀ a ∈ l, (if q a then [f a] else []) <+ if p a then [f a] else [] := by
    intro a ha
    have := h a ha
    cases hq : q a <;> simp_all
  rw [hflat, hflat, flatMap_perm_iff hchunk]
  constructor
  . intro heq a ha hp
    have := heq a ha
    cases hq : q a <;> simp_all
  . intro hall a ha
    have := h a ha
    have := hall a ha
    cases hq : q a <;> cases hp : p a <;> simp_all

section Apart

variable {l : List α} {f e : α → List β}

/-- Chunks that have nothing in common are compared one by one. -/
theorem flatMap_perm_iff_of_apart (own : α → β → Prop) (hf : ∀ x ∈ l, ∀ b ∈ f x, own x b)
    (he : ∀ x ∈ l, ∀ b ∈ e x, own x b) (hapart : l.Pairwise fun x y => ∀ b, own x b → ¬own y b)
    : l.flatMap f ~ l.flatMap e ↔ ∀ x ∈ l, f x ~ e x := by
  constructor
  . intro hperm
    classical
    induction l with
    | nil => simp
    | cons a l ih =>
      rw [List.forall_mem_cons] at hf he
      have ⟨hhead, htail⟩ := List.pairwise_cons.mp hapart
      -- what belongs to the first chunk
      have hown : ∀ {g : α → List β}, (∀ b ∈ g a, own a b) → (∀ x ∈ l, ∀ b ∈ g x, own x b) →
          ((a :: l).flatMap g).filter (own a ·) = g a := by
        intro g hga hgl
        have hrest : (l.flatMap g).filter (own a ·) = [] := by
          rw [List.filter_eq_nil_iff]
          intro b hb hab
          obtain ⟨x, hx, hb⟩ := List.mem_flatMap.mp hb
          exact hhead x hx b (of_decide_eq_true hab) (hgl x hx b hb)
        rw [List.flatMap_cons, List.filter_append, hrest, List.append_nil, List.filter_eq_self]
        exact fun b hb => decide_eq_true (hga b hb)
      have hfirst := hperm.filter fun b => own a b
      rw [hown hf.1 hf.2, hown he.1 he.2] at hfirst
      rw [List.flatMap_cons, List.flatMap_cons] at hperm
      have hrest := (List.perm_append_left_iff _).mp (hperm.trans (hfirst.symm.append_right _))
      exact List.forall_mem_cons.mpr ⟨hfirst, ih hf.2 he.2 htail hrest⟩
  . intro hall
    exact List.Perm.flatMap_left _ hall

theorem flatMap_subperm (h : ∀ x ∈ l, f x <+~ e x) : l.flatMap f <+~ l.flatMap e := by
  induction l with
  | nil => simp
  | cons a l ih =>
    rw [List.forall_mem_cons] at h
    rw [List.flatMap_cons, List.flatMap_cons]
    exact h.1.append (ih h.2)

end Apart

theorem perm_of_perm_map {γ : Type*} {key : β → γ} {l l' : List β} (hsubset : l ⊆ l')
    (hkey : ∀ a ∈ l', ∀ b ∈ l', key a = key b → a = b) (h : l.map key ~ l'.map key)
    : l ~ l' := by
  cases hl' : l' with
  | nil =>
    subst hl'
    rw [List.eq_nil_of_subset_nil hsubset]
  | cons a rest =>
    have : Nonempty β := ⟨a⟩
    have hinj : Set.InjOn key {b | b ∈ l'} := fun a ha b hb heq => hkey a ha b hb heq
    have hback : ∀ {m : List β}, m ⊆ l' →
        (m.map key).map (Function.invFunOn key {b | b ∈ l'}) = m := by
      intro m hm
      rw [List.map_map]
      refine (List.map_congr_left ?_).trans (List.map_id m)
      exact fun b hb => hinj.leftInvOn_invFunOn (hm hb)
    have hperm := h.map (Function.invFunOn key {b | b ∈ l'})
    rw [hback hsubset, hback (List.Subset.refl _)] at hperm
    exact hl' ▸ hperm

theorem count_flatMap_le [BEq β] {l : List α} {f g : α → List β} {k : Nat} {b : β}
    (h : ∀ a ∈ l, (f a).count b ≤ k * (g a).count b)
    : (l.flatMap f).count b ≤ k * (l.flatMap g).count b := by
  induction l with
  | nil => simp
  | cons a l ih =>
    rw [List.forall_mem_cons] at h
    rw [List.flatMap_cons, List.flatMap_cons, List.count_append, List.count_append, Nat.mul_add]
    exact Nat.add_le_add h.1 (ih h.2)

theorem append_flatMap_append (sep : List β) (l : List α) (f : α → List β)
    : sep ++ (l.flatMap fun a => f a ++ sep) = (l.flatMap fun a => sep ++ f a) ++ sep := by
  induction l with
  | nil => simp
  | cons a l ih =>
    rw [List.flatMap_cons, List.flatMap_cons, List.append_assoc, List.append_assoc, ← ih]
    simp only [List.append_assoc]

end Chunks
