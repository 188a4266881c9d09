import Mathlib.Algebra.Order.Ring.Nat
import HdlGraph.Library.Dict

/-!
This module contains bucketed indexes: a map that files each item of a log under a key of it, as a
multimap does. `Files m key l` says that `m` is exactly such an index of the log `l`; the other
theorems say which log is indexed after each way of changing the index.
-/

namespace Buckets

variable {κ : Type u} {α : Type v} [DecidableEq κ]

def Files (m : Dict κ (List α)) (key : α → κ) (l : List α) : Prop :=
  ∀ k, m.getD k [] = l.filter fun a => key a = k

-- `m.entry(key).or_default().push(a)`
def push (m : Dict κ (List α)) (k : κ) (a : α) : Dict κ (List α) := m.entry k [] (· ++ [a])

def touch (m : Dict κ (List α)) (k : κ) : Dict κ (List α) := m.entry k [] id

-- `if let Some(bucket) = m.get_mut(&k) { bucket.retain(p) }`
def retain (m : Dict κ (List α)) (k : κ) (p : α → Bool) : Dict κ (List α) :=
  m.modify k (List.filter p)

def items (m : Dict κ (List α)) : List α := m.toList.flatMap Prod.snd

def size (m : Dict κ (List α)) : Nat := m.toList.foldr (fun e n => e.2.length + n) 0

omit [DecidableEq κ] in
theorem size_eq_length_items (m : Dict κ (List α)) : size m = (items m).length := by
  unfold size items
  induction m.toList with
  | nil => rfl
  | cons e rest ih => rw [List.foldr_cons, ih, List.flatMap_cons, List.length_append]

theorem sum_ite_eq {ks : List κ} (hnodup : ks.Nodup) (k : κ) (n : Nat)
    : (ks.map fun k' => if k = k' then n else 0).sum = if k ∈ ks then n else 0 := by
  induction ks with
  | nil => simp
  | cons k' ks ih =>
    have ⟨hk, hks⟩ := List.nodup_cons.mp hnodup
    rw [List.map_cons, List.sum_cons, ih hks]
    by_cases hkk : k = k'
    . subst hkk
      simp [hk]
    . simp [hkk]

namespace Files

variable {m : Dict κ (List α)} {key : α → κ} {l : List α}

theorem empty : Files Dict.empty key ([] : List α) := by
  intro k
  rfl

theorem getD_eq (h : Files m key l) (k : κ) : m.getD k [] = l.filter fun a => key a = k := h k

theorem key_eq (h : Files m key l) {k : κ} {a : α} (ha : a ∈ m.getD k []) : key a = k := by
  rw [h.getD_eq] at ha
  simpa using (List.mem_filter.mp ha).2

theorem touch (h : Files m key l) (k : κ) : Files (touch m k) key l := by
  intro k'
  unfold Buckets.touch
  rw [Dict.getD_entry]
  split
  . next hk =>
    rw [hk]
    exact h k
  . exact h k'

theorem push (h : Files m key l) (a : α) : Files (push m (key a) a) key (l ++ [a]) := by
  intro k'
  unfold Buckets.push
  rw [Dict.getD_entry, List.filter_append]
  split
  . next hk =>
    simp [h.getD_eq, hk]
  . next hk =>
    have : ¬ key a = k' := fun e => hk e.symm
    simp [h.getD_eq, this]

theorem retain (h : Files m key l) (k : κ) (p : α → Bool)
    : Files (retain m k p) key (l.filter fun a => key a ≠ k ∨ p a) := by
  intro k'
  unfold Buckets.retain
  rw [Dict.getD_modify _ _ _ _ _ rfl, List.filter_filter]
  split
  . next hk =>
    subst hk
    rw [h.getD_eq, List.filter_filter]
    apply List.filter_congr
    intro a _
    by_cases ha : key a = k' <;> simp [ha]
  . next hk =>
    rw [h.getD_eq]
    apply List.filter_congr
    intro a _
    by_cases ha : key a = k'
    . simp [ha, hk]
    . simp [ha]

theorem remove (h : Files m key l) (k : κ)
    : Files (m.remove k) key (l.filter fun a => key a ≠ k) := by
  intro k'
  rw [Dict.getD_remove, List.filter_filter]
  split
  . next hk =>
    subst hk
    symm
    rw [List.filter_eq_nil_iff]
    intro a _
    simp
  . next hk =>
    rw [h.getD_eq]
    apply List.filter_congr
    intro a _
    by_cases ha : key a = k'
    . simp [ha, hk]
    . simp [ha]

theorem retain_all (p : α → Bool) (ks : List κ) (h : Files m key l)
    (hks : ∀ a ∈ l, p a = false → key a ∈ ks)
    : Files (ks.foldl (fun m k => Buckets.retain m k p) m) key (l.filter p) := by
  induction ks generalizing m l with
  | nil =>
    have : l.filter p = l := by
      rw [List.filter_eq_self]
      intro a ha
      by_contra hp
      simpa using hks a ha (by simpa using hp)
    rw [this]
    exact h
  | cons k ks ih =>
    have step := h.retain k p
    have key_mem : ∀ a ∈ l.filter (fun a => key a ≠ k ∨ p a), p a = false → key a ∈ ks := by
      intro a ha hp
      have ⟨hmem, hor⟩ := List.mem_filter.mp ha
      have hne : key a ≠ k := by simpa [hp] using hor
      have := hks a hmem hp
      rw [List.mem_cons] at this
      exact this.resolve_left hne
    have := ih step key_mem
    rw [List.filter_filter] at this
    rw [List.foldl_cons]
    convert this using 2
    funext a
    by_cases hp : p a <;> simp [hp]

theorem count_bucket [DecidableEq α] (h : Files m key l) {e : κ × List α}
    (he : e ∈ m.toList) (a : α)
    : e.2.count a = if key a = e.1 then l.count a else 0 := by
  have hbucket : e.2 = l.filter fun a => key a = e.1 := by
    rw [← h.getD_eq, Dict.getD, Dict.mem_toList_iff.mp he]
    rfl
  rw [hbucket]
  split
  . next hk =>
    apply List.count_filter
    simpa using hk
  . next hk =>
    rw [List.count_eq_zero]
    intro hmem
    exact hk (by simpa using (List.mem_filter.mp hmem).2)

theorem key_mem_keys (h : Files m key l) {a : α} (ha : a ∈ l) : key a ∈ m.keys := by
  rw [Dict.mem_keys_iff]
  have hbucket : a ∈ m.getD (key a) [] := by
    rw [h.getD_eq]
    simpa using ha
  unfold Dict.getD at hbucket
  cases hget : m.get? (key a) with
  | none => simp [hget] at hbucket
  | some v => exact ⟨v, rfl⟩

theorem perm_items (h : Files m key l) : (items m).Perm l := by
  classical
  rw [List.perm_iff_count]
  intro a
  have hcount : (items m).count a
      = (m.keys.map fun k => if key a = k then l.count a else 0).sum := by
    rw [items, List.count_flatMap, ← Dict.keys_eq, List.map_map]
    congr 1
    apply List.map_congr_left
    intro e he
    exact h.count_bucket he a
  rw [hcount, sum_ite_eq m.keys_nodup]
  split
  . rfl
  . next hk =>
    symm
    rw [List.count_eq_zero]
    intro hmem
    exact hk (h.key_mem_keys hmem)

theorem perm_flatMap_getD (h : Files m key l) {ks : List κ} (hnodup : ks.Nodup)
    : (ks.flatMap fun k => m.getD k []).Perm (l.filter fun a => key a ∈ ks) := by
  induction ks with
  | nil => simp
  | cons k ks ih =>
    rw [List.nodup_cons] at hnodup
    have hfirst : (l.filter fun a => key a ∈ k :: ks).filter (fun a => key a = k)
        = l.filter fun a => key a = k := by
      rw [List.filter_filter]
      apply List.filter_congr
      intro a _
      by_cases hk : key a = k <;> simp [hk]
    have hrest : (l.filter fun a => key a ∈ k :: ks).filter (fun a => !decide (key a = k))
        = l.filter fun a => key a ∈ ks := by
      rw [List.filter_filter]
      apply List.filter_congr
      intro a _
      by_cases hk : key a = k <;> simp [hk, hnodup.1]
    have hsplit :=
      List.filter_append_perm (fun a => decide (key a = k)) (l.filter fun a => key a ∈ k :: ks)
    rw [hfirst, hrest] at hsplit
    rw [List.flatMap_cons, h.getD_eq]
    exact ((ih hnodup.2).append_left _).trans hsplit

theorem size_eq (h : Files m key l) : size m = l.length := by
  rw [size_eq_length_items]
  exact h.perm_items.length_eq

end Files

end Buckets
