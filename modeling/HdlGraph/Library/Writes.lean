import Mathlib.Algebra.Order.BigOperators.Group.Finset
import Mathlib.Data.Finset.Card

/-!
This module contains stores that are written one key after the other, and when everybody finds what
is theirs under a key of their own.
-/

namespace Writes

universe u v

variable {κ : Type u} {β : Type v}

section Store

variable [DecidableEq κ]

def write (store : κ → Option β) (w : κ × β) : κ → Option β := Function.update store w.1 (some w.2)

def writeAll (store : κ → Option β) (ws : List (κ × β)) : κ → Option β := ws.foldl write store

variable {store : κ → Option β} {ws : List (κ × β)} {x : κ} {b : β}

theorem writeAll_of_not_mem (h : ∀ w ∈ ws, w.1 ≠ x) : writeAll store ws x = store x := by
  induction ws generalizing store with
  | nil => rfl
  | cons w ws ih =>
    rw [writeAll, List.foldl_cons, ← writeAll, ih fun w' hw' => h w' (List.mem_cons_of_mem _ hw')]
    exact Function.update_of_ne (h w List.mem_cons_self).symm _ _

theorem exists_writeAll (store : κ → Option β) (h : ∃ w ∈ ws, w.1 = x)
    : ∃ w ∈ ws, w.1 = x ∧ writeAll store ws x = some w.2 := by
  induction ws generalizing store with
  | nil => simp at h
  | cons w ws ih =>
    by_cases hrest : ∃ w' ∈ ws, w'.1 = x
    . obtain ⟨w', hw', hx, hwrite⟩ := ih (write store w) hrest
      exact ⟨w', List.mem_cons_of_mem _ hw', hx, hwrite⟩
    . have hx : w.1 = x := by
        obtain ⟨w', hw', hx⟩ := h
        rcases List.mem_cons.mp hw' with rfl | hw'
        . exact hx
        . exact absurd ⟨w', hw', hx⟩ hrest
      refine ⟨w, List.mem_cons_self, hx, ?_⟩
      rw [writeAll, List.foldl_cons, ← writeAll, writeAll_of_not_mem fun w' hw' heq =>
        hrest ⟨w', hw', heq⟩, ← hx]
      exact Function.update_self _ _ _

theorem mem_of_writeAll (h : writeAll store ws x = some b) : store x = some b ∨ (x, b) ∈ ws := by
  by_cases hx : ∃ w ∈ ws, w.1 = x
  . obtain ⟨w, hw, rfl, hwrite⟩ := exists_writeAll store hx
    rw [hwrite, Option.some.injEq] at h
    exact Or.inr (h ▸ hw)
  . rw [writeAll_of_not_mem fun w hw heq => hx ⟨w, hw, heq⟩] at h
    exact Or.inl h

theorem writeAll_of_mem (hmem : (x, b) ∈ ws) (honly : ∀ b', (x, b') ∈ ws → b' = b)
    : writeAll store ws x = some b := by
  obtain ⟨⟨_, b'⟩, hw, rfl, hwrite⟩ := exists_writeAll store ⟨_, hmem, rfl⟩
  rw [hwrite, honly b' hw]

end Store

/-! ## Keys that are where others write -/

theorem eq_of_forall_exists {α : Type*} {s : Finset α} {key written : α → κ} (size : κ → Nat)
    (hle : ∀ a ∈ s, size (written a) ≤ size (key a))
    (heq : ∀ a ∈ s, size (written a) = size (key a) → written a = key a) (hinj : Set.InjOn key s)
    (hexists : ∀ a ∈ s, ∃ b ∈ s, written b = key a)
    : ∀ a ∈ s, written a = key a := by
  classical
  have hchoice : ∃ other : α → α, ∀ a ∈ s, other a ∈ s ∧ written (other a) = key a := by
    refine ⟨fun a => if h : a ∈ s then (hexists a h).choose else a, ?_⟩
    intro a ha
    simp only [dif_pos ha]
    exact (hexists a ha).choose_spec
  obtain ⟨other, hother⟩ := hchoice
  have hotherInj : Set.InjOn other s := by
    intro a ha b hb hab
    apply hinj ha hb
    rw [← (hother a ha).2, ← (hother b hb).2, hab]
  have himage : s.image other = s := by
    apply Finset.eq_of_subset_of_card_le
    . intro b hb
      obtain ⟨a, ha, rfl⟩ := Finset.mem_image.mp hb
      exact (hother a ha).1
    . rw [Finset.card_image_of_injOn hotherInj]
  have hsum : ∑ a ∈ s, size (written a) = ∑ a ∈ s, size (key a) := by
    calc ∑ a ∈ s, size (written a)
        = ∑ a ∈ s.image other, size (written a) := by rw [himage]
      _ = ∑ a ∈ s, size (written (other a)) := Finset.sum_image hotherInj
      _ = ∑ a ∈ s, size (key a) := Finset.sum_congr rfl fun a ha => congrArg size (hother a ha).2
  intro a ha
  exact heq a ha ((Finset.sum_eq_sum_iff_of_le hle).mp hsum a ha)

end Writes
