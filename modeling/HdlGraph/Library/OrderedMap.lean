import Mathlib.Order.Lattice
import Mathlib.Data.List.Perm.Basic

/-!
This module contains maps that keep their entries in the order of the keys, as an ordered key-value
store does, and the scan over the keys of an interval.
-/

universe u v

structure OrderedMap (κ : Type u) (ν : Type v) [LinearOrder κ] where
  entries : List (κ × ν)
  sorted : entries.Pairwise fun e e' => e.1 < e'.1

namespace OrderedMap

variable {κ : Type u} {ν : Type v} [LinearOrder κ]

def empty : OrderedMap κ ν := ⟨[], .nil⟩

def keys (m : OrderedMap κ ν) : List κ := m.entries.map Prod.fst

def get? (m : OrderedMap κ ν) (k : κ) : Option ν := (m.entries.find? fun e => e.1 = k).map Prod.snd

def insertEntry (k : κ) (v : ν) : List (κ × ν) → List (κ × ν)
  | [] => [(k, v)]
  | e :: es =>
    if k < e.1 then (k, v) :: e :: es
    else if k = e.1 then (k, v) :: es
    else e :: insertEntry k v es

theorem mem_of_mem_insertEntry {k : κ} {v : ν} {e : κ × ν} {es : List (κ × ν)}
    (h : e ∈ insertEntry k v es)
    : e = (k, v) ∨ e ∈ es := by
  induction es with
  | nil => exact Or.inl (List.mem_singleton.mp h)
  | cons e' es ih =>
    unfold insertEntry at h
    split at h
    . exact List.mem_cons.mp h
    . split at h
      . exact (List.mem_cons.mp h).imp_right (List.mem_cons_of_mem e')
      . cases List.mem_cons.mp h with
        | inl heq => exact Or.inr (heq ▸ List.mem_cons_self)
        | inr hmem => exact (ih hmem).imp_right (List.mem_cons_of_mem e')

theorem sorted_insertEntry (k : κ) (v : ν) {es : List (κ × ν)}
    (h : es.Pairwise fun e e' => e.1 < e'.1)
    : (insertEntry k v es).Pairwise fun e e' => e.1 < e'.1 := by
  induction es with
  | nil => exact List.pairwise_singleton _ _
  | cons e es ih =>
    have ⟨hhead, htail⟩ := List.pairwise_cons.mp h
    unfold insertEntry
    split
    . next hlt =>
      refine List.pairwise_cons.mpr ⟨?_, h⟩
      intro e' he'
      cases List.mem_cons.mp he' with
      | inl heq => exact heq ▸ hlt
      | inr hmem => exact lt_trans hlt (hhead e' hmem)
    . next hge =>
      split
      . next heq => exact List.pairwise_cons.mpr ⟨fun e' he' => heq ▸ hhead e' he', htail⟩
      . next hne =>
        refine List.pairwise_cons.mpr ⟨?_, ih htail⟩
        intro e' he'
        cases mem_of_mem_insertEntry he' with
        | inl heq => exact heq ▸ lt_of_le_of_ne (not_lt.mp hge) (Ne.symm hne)
        | inr hmem => exact hhead e' hmem

def put (m : OrderedMap κ ν) (k : κ) (v : ν) : OrderedMap κ ν :=
  ⟨insertEntry k v m.entries, sorted_insertEntry k v m.sorted⟩

-- the entries from the first one on whose key is not below `k`
def iterFrom (m : OrderedMap κ ν) (k : κ) : List (κ × ν) := m.entries.dropWhile fun e => e.1 < k

theorem get?_put (m : OrderedMap κ ν) (k k' : κ) (v : ν)
    : (m.put k v).get? k' = if k' = k then some v else m.get? k' := by
  have ⟨es, hsorted⟩ := m
  unfold put get?
  simp only
  induction es with
  | nil =>
    simp only [insertEntry, List.find?_cons, List.find?_nil]
    grind
  | cons e es ih =>
    have htail := ih (List.pairwise_cons.mp hsorted).2
    unfold insertEntry
    split
    . simp only [List.find?_cons]
      grind
    . split
      . simp only [List.find?_cons]
        grind
      . simp only [List.find?_cons] at *
        grind

theorem mem_entries_iff {m : OrderedMap κ ν} {k : κ} {v : ν}
    : (k, v) ∈ m.entries ↔ m.get? k = some v := by
  have ⟨es, hsorted⟩ := m
  unfold get?
  simp only
  induction es with
  | nil => simp
  | cons e es ih =>
    have ⟨hhead, htail⟩ := List.pairwise_cons.mp hsorted
    have hrest := ih htail
    rw [List.mem_cons, List.find?_cons]
    by_cases hk : e.1 = k
    . have hnot : (k, v) ∉ es := fun hmem => lt_irrefl k (hk ▸ hhead (k, v) hmem)
      simp only [hk, hnot, or_false, decide_true, Option.map_some, Option.some.injEq]
      grind
    . have hne : (k, v) ≠ e := fun heq => hk (heq ▸ rfl)
      simpa only [hk, hne, false_or, decide_false] using hrest

theorem mem_keys_iff {m : OrderedMap κ ν} {k : κ} : k ∈ m.keys ↔ ∃ v, m.get? k = some v := by
  simp [keys, ← mem_entries_iff]

theorem mem_keys_put {m : OrderedMap κ ν} {k k' : κ} {v : ν} : k' ∈ (m.put k v).keys
    ↔ k' = k ∨ k' ∈ m.keys := by
  rw [mem_keys_iff, mem_keys_iff, get?_put]
  split
  . next h => simp [h]
  . next h => simp [h]

theorem keys_sorted (m : OrderedMap κ ν) : m.keys.Pairwise (· < ·) := List.pairwise_map.mpr m.sorted

theorem keys_nodup (m : OrderedMap κ ν) : m.keys.Nodup := m.keys_sorted.imp ne_of_lt

theorem takeWhile_eq_filter {es : List (κ × ν)} {q : κ × ν → Bool}
    (h : es.Pairwise fun e e' => e.1 < e'.1) (hdown : ∀ e ∈ es, ∀ e' ∈ es, e.1 < e'.1 → q e' → q e)
    : es.takeWhile q = es.filter q := by
  induction es with
  | nil => rfl
  | cons e es ih =>
    have ⟨hhead, htail⟩ := List.pairwise_cons.mp h
    cases hq : q e with
    | true =>
      rw [List.takeWhile_cons_of_pos hq, List.filter_cons_of_pos hq, ih htail]
      intro e₁ he₁ e₂ he₂
      exact hdown e₁ (List.mem_cons_of_mem e he₁) e₂ (List.mem_cons_of_mem e he₂)
    | false =>
      have hnone : es.filter q = [] := by
        rw [List.filter_eq_nil_iff]
        intro e' he' hq'
        rw [hdown e List.mem_cons_self e' (List.mem_cons_of_mem e he') (hhead e' he') hq'] at hq
        exact Bool.noConfusion hq
      rw [List.takeWhile_cons_of_neg (by simp [hq]), List.filter_cons_of_neg (by simp [hq]), hnone]

theorem takeWhile_iterFrom {m : OrderedMap κ ν} {start : κ} {q : κ × ν → Bool}
    (hstart : ∀ e ∈ m.entries, q e → start ≤ e.1)
    (hdown : ∀ e ∈ m.entries, ∀ e' ∈ m.entries, start ≤ e.1 → e.1 < e'.1 → q e' → q e)
    : (m.iterFrom start).takeWhile q = m.entries.filter q := by
  have ⟨es, hsorted⟩ := m
  unfold iterFrom
  simp only at *
  induction es with
  | nil => rfl
  | cons e es ih =>
    have ⟨hhead, htail⟩ := List.pairwise_cons.mp hsorted
    by_cases hlt : e.1 < start
    . have hq : ¬q e = true := fun hq => absurd (hstart e List.mem_cons_self hq) (not_le.mpr hlt)
      rw [List.dropWhile_cons_of_pos (by simpa using hlt), List.filter_cons_of_neg hq, ih htail]
      . exact fun e' he' => hstart e' (List.mem_cons_of_mem e he')
      . intro e₁ he₁ e₂ he₂
        exact hdown e₁ (List.mem_cons_of_mem e he₁) e₂ (List.mem_cons_of_mem e he₂)
    . -- From here on all keys are at or above the start
      rw [List.dropWhile_cons_of_neg (by simpa using hlt)]
      apply takeWhile_eq_filter hsorted
      intro e₁ he₁ e₂ he₂
      refine hdown e₁ he₁ e₂ he₂ ?_
      cases List.mem_cons.mp he₁ with
      | inl heq => exact heq ▸ not_lt.mp hlt
      | inr hmem => exact le_of_lt (lt_of_le_of_lt (not_lt.mp hlt) (hhead e₁ hmem))

end OrderedMap
