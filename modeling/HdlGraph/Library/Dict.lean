import Mathlib.Data.List.AList
import Mathlib.Algebra.BigOperators.Group.List.Basic
import Mathlib.Algebra.Order.BigOperators.Group.List

/-!
This module contains finite maps with unique keys, on top of `AList`, and the operations a
`HashMap` of an imperative program offers: lookup, insertion, removal, update in place and the
`entry(k).or_default()` idiom. The order of the entries carries no meaning.
-/

universe u v w

abbrev Dict (κ : Type u) (ν : Type v) := AList (fun _ : κ => ν)

namespace Dict

variable {κ : Type u} {ν : Type v} [DecidableEq κ]

def empty : Dict κ ν := ∅

def get? (m : Dict κ ν) (k : κ) : Option ν := AList.lookup k m

def getD (m : Dict κ ν) (k : κ) (d : ν) : ν := (m.get? k).getD d

def containsKey (m : Dict κ ν) (k : κ) : Bool := (m.get? k).isSome

def insert (m : Dict κ ν) (k : κ) (v : ν) : Dict κ ν := AList.insert k v m

def remove (m : Dict κ ν) (k : κ) : Dict κ ν := AList.erase k m

-- `if let Some(v) = m.get_mut(k) { *v = f(v) }`
def modify (m : Dict κ ν) (k : κ) (f : ν → ν) : Dict κ ν :=
  match m.get? k with
  | some v => m.insert k (f v)
  | none => m

def entry (m : Dict κ ν) (k : κ) (d : ν) (f : ν → ν) : Dict κ ν := m.insert k (f (m.getD k d))

def keys (m : Dict κ ν) : List κ := AList.keys m

def toList (m : Dict κ ν) : List (κ × ν) := m.entries.map fun e => (e.1, e.2)

@[simp]
theorem get?_empty (k : κ) : (empty : Dict κ ν).get? k = none := rfl

@[simp]
theorem getD_empty (k : κ) (d : ν) : (empty : Dict κ ν).getD k d = d := rfl

theorem get?_insert (m : Dict κ ν) (k k' : κ) (v : ν)
    : (m.insert k v).get? k' = if k' = k then some v else m.get? k' := by
  unfold get? insert
  split
  . next h =>
    subst h
    apply AList.lookup_insert
  . next h =>
    apply AList.lookup_insert_ne h

@[simp]
theorem get?_insert_self (m : Dict κ ν) (k : κ) (v : ν) : (m.insert k v).get? k = some v := by
  simp [get?_insert]

theorem get?_insert_of_ne (m : Dict κ ν) {k k' : κ} (v : ν) (h : k' ≠ k)
    : (m.insert k v).get? k' = m.get? k' := by
  simp [get?_insert, h]

theorem get?_remove (m : Dict κ ν) (k k' : κ)
    : (m.remove k).get? k' = if k' = k then none else m.get? k' := by
  unfold get? remove
  split
  . next h =>
    subst h
    apply AList.lookup_erase
  . next h =>
    apply AList.lookup_erase_ne h

@[simp]
theorem get?_remove_self (m : Dict κ ν) (k : κ) : (m.remove k).get? k = none := by
  simp [get?_remove]

theorem get?_modify (m : Dict κ ν) (k k' : κ) (f : ν → ν)
    : (m.modify k f).get? k' = if k' = k then (m.get? k).map f else m.get? k' := by
  unfold modify
  split
  . next v hv =>
    simp [get?_insert, hv]
  . next hnone =>
    split
    . next h =>
      simp [h, hnone]
    . rfl

theorem getD_insert (m : Dict κ ν) (k k' : κ) (v d : ν)
    : (m.insert k v).getD k' d = if k' = k then v else m.getD k' d := by
  unfold getD
  rw [get?_insert]
  split <;> rfl

theorem getD_remove (m : Dict κ ν) (k k' : κ) (d : ν)
    : (m.remove k).getD k' d = if k' = k then d else m.getD k' d := by
  unfold getD
  rw [get?_remove]
  split <;> rfl

theorem getD_modify (m : Dict κ ν) (k k' : κ) (f : ν → ν) (d : ν) (hd : f d = d)
    : (m.modify k f).getD k' d = if k' = k then f (m.getD k d) else m.getD k' d := by
  unfold getD
  rw [get?_modify]
  split
  . cases m.get? k <;> simp [hd]
  . rfl

theorem getD_entry (m : Dict κ ν) (k k' : κ) (d : ν) (f : ν → ν)
    : (m.entry k d f).getD k' d = if k' = k then f (m.getD k d) else m.getD k' d := by
  unfold entry
  rw [getD_insert]

theorem containsKey_iff {m : Dict κ ν} {k : κ} : m.containsKey k = true
    ↔ ∃ v, m.get? k = some v := by
  simp [containsKey, Option.isSome_iff_exists]

theorem remove_of_containsKey_eq_false {m : Dict κ ν} {k : κ} (h : m.containsKey k = false)
    : m.remove k = m := by
  apply AList.ext
  apply List.kerase_of_notMem_keys
  intro hmem
  have hsome : (AList.lookup k m).isSome = true := AList.lookup_isSome.mpr hmem
  rw [show (AList.lookup k m).isSome = false from h] at hsome
  contradiction

theorem mem_keys_iff {m : Dict κ ν} {k : κ} : k ∈ m.keys ↔ ∃ v, m.get? k = some v := by
  have h : (AList.lookup k m).isSome ↔ k ∈ m := AList.lookup_isSome
  rw [Option.isSome_iff_exists] at h
  exact AList.mem_keys.symm.trans h.symm

theorem mem_toList_iff {m : Dict κ ν} {k : κ} {v : ν} : (k, v) ∈ m.toList ↔ m.get? k = some v := by
  have h := AList.mem_lookup_iff (a := k) (b := v) (s := m)
  simp only [Option.mem_def] at h
  simp only [get?, h, toList, List.mem_map, Prod.mk.injEq, Sigma.exists]
  grind

omit [DecidableEq κ] in
theorem keys_nodup (m : Dict κ ν) : m.keys.Nodup := AList.keys_nodup m

omit [DecidableEq κ] in
theorem keys_eq (m : Dict κ ν) : m.toList.map Prod.fst = m.keys := by
  simp only [toList, keys, AList.keys, List.keys, List.map_map]
  rfl

omit [DecidableEq κ] in
theorem toList_nodup (m : Dict κ ν) : m.toList.Nodup := by
  apply List.Nodup.of_map Prod.fst
  rw [keys_eq]
  exact m.keys_nodup

theorem perm_toList_remove (m : Dict κ ν) (k : κ)
    : (m.remove k).toList.Perm (m.toList.filter fun e => e.1 ≠ k) := by
  rw [List.perm_ext_iff_of_nodup (m.remove k).toList_nodup (m.toList_nodup.filter _)]
  intro ⟨k', v⟩
  rw [mem_toList_iff, get?_remove, List.mem_filter, mem_toList_iff, decide_eq_true_eq]
  grind

theorem perm_toList_insert (m : Dict κ ν) (k : κ) (v : ν)
    : (m.insert k v).toList.Perm ((k, v) :: m.toList.filter fun e => e.1 ≠ k) := by
  have hnodup : ((k, v) :: m.toList.filter fun e => e.1 ≠ k).Nodup := by
    rw [List.nodup_cons]
    refine ⟨?_, m.toList_nodup.filter _⟩
    simp
  rw [List.perm_ext_iff_of_nodup (m.insert k v).toList_nodup hnodup]
  intro ⟨k', v'⟩
  rw [mem_toList_iff, get?_insert, List.mem_cons, List.mem_filter, mem_toList_iff,
    decide_eq_true_eq]
  grind

theorem perm_toList_of_get?_eq_some {m : Dict κ ν} {k : κ} {v : ν} (h : m.get? k = some v)
    : m.toList.Perm ((k, v) :: m.toList.filter fun e => e.1 ≠ k) := by
  have hnodup : ((k, v) :: m.toList.filter fun e => e.1 ≠ k).Nodup := by
    rw [List.nodup_cons]
    refine ⟨?_, m.toList_nodup.filter _⟩
    simp
  rw [List.perm_ext_iff_of_nodup m.toList_nodup hnodup]
  intro ⟨k', v'⟩
  rw [mem_toList_iff, List.mem_cons, List.mem_filter, mem_toList_iff, decide_eq_true_eq]
  grind

theorem perm_toList_map {ν' : Type w} {m : Dict κ ν} {m' : Dict κ ν'} {f : κ → ν → ν'}
    (h : ∀ k, m'.get? k = (m.get? k).map (f k))
    : m'.toList.Perm (m.toList.map fun e => (e.1, f e.1 e.2)) := by
  have hnodup : (m.toList.map fun e => (e.1, f e.1 e.2)).Nodup := by
    apply List.Nodup.of_map Prod.fst
    rw [List.map_map]
    exact (keys_eq m).symm ▸ m.keys_nodup
  rw [List.perm_ext_iff_of_nodup m'.toList_nodup hnodup]
  intro ⟨k, v'⟩
  rw [mem_toList_iff, h, List.mem_map, Option.map_eq_some_iff]
  constructor
  . intro ⟨v, hv, heq⟩
    exact ⟨(k, v), mem_toList_iff.mpr hv, by rw [heq]⟩
  . intro ⟨⟨k', v⟩, he, heq⟩
    rw [Prod.mk.injEq] at heq
    have ⟨hk, hv⟩ := heq
    subst hk
    exact ⟨v, mem_toList_iff.mp he, hv⟩

theorem filter_toList_of_get?_eq_none {m : Dict κ ν} {k : κ} (h : m.get? k = none)
    : (m.toList.filter fun e => e.1 ≠ k) = m.toList := by
  rw [List.filter_eq_self]
  intro ⟨k', v⟩ he
  rw [mem_toList_iff] at he
  grind

end Dict
