import Mathlib.Data.List.Infix

/-!
This module contains the nesting of constructs of several kinds, each of which is opened and closed,
and counters of the constructs of one kind that are open, which are never below zero.
-/

universe u

namespace Nesting

inductive Mark (κ : Type u) where
  | opens (k : κ)
  | closes (k : κ)
  deriving DecidableEq, Repr

variable {κ : Type u} [DecidableEq κ] (may : κ → List κ → Bool)

-- The innermost construct stands first; `may` says what may be opened in what
def enter : List κ → Mark κ → Option (List κ)
  | stack, .opens k => if may k stack then some (k :: stack) else none
  | [], .closes _ => none
  | k' :: stack, .closes k => if k = k' then some stack else none

def nest (stack : List κ) (marks : List (Mark κ)) : Option (List κ) :=
  marks.foldlM (enter may) stack

def Nested (marks : List (Mark κ)) : Prop := nest may [] marks = some []

instance (marks : List (Mark κ)) : Decidable (Nested may marks) :=
  inferInstanceAs (Decidable (_ = _))

def count (k : κ) (d : Nat) : Mark κ → Nat
  | .opens k' => if k' = k then d + 1 else d
  | .closes k' => if k' = k then d - 1 else d

def depth (k : κ) (marks : List (Mark κ)) : Nat := marks.foldl (count k) 0

/--
At the end of the marks some construct of the kind was opened after which no more are closed than
opened.
-/
def Open (k : κ) (marks : List (Mark κ)) : Prop :=
  ∃ back, back <:+ marks ∧ back.count (.closes k) < back.count (.opens k)

variable {may} {k : κ} {marks : List (Mark κ)} {stack : List κ}

theorem depth_concat (k : κ) (marks : List (Mark κ)) (m : Mark κ)
    : depth k (marks ++ [m]) = count k (depth k marks) m := by
  rw [depth, List.foldl_append]
  rfl

theorem exists_suffix_concat {α : Type u} {s : List α} {a : α} {P : List α → Prop}
    : (∃ back, back <:+ s ++ [a] ∧ P back) ↔ P [] ∨ ∃ back, back <:+ s ∧ P (back ++ [a]) := by
  simp only [List.suffix_concat_iff]
  grind

theorem lt_depth_iff (k : κ) (marks : List (Mark κ)) (n : Nat)
    : n < depth k marks
        ↔ ∃ back, back <:+ marks ∧ back.count (.closes k) + n < back.count (.opens k) := by
  induction marks using List.reverseRecOn generalizing n with
  | nil => simp [depth]
  | append_singleton marks m ih =>
    rw [depth_concat, exists_suffix_concat]
    simp only [List.count_append, List.count_singleton, List.count_nil, Nat.not_lt_zero, false_or]
    cases m with
    | opens k' =>
      by_cases hk : k' = k
      . cases n with
        | zero => simpa [count, hk] using ⟨[], List.nil_suffix, by simp⟩
        | succ n => simpa [count, hk, ← Nat.add_assoc] using ih n
      . simpa [count, hk] using ih n
    | closes k' =>
      by_cases hk : k' = k
      . have hsub : n < depth k marks - 1 ↔ n + 1 < depth k marks := by omega
        simpa [count, hk, hsub, Nat.add_right_comm _ 1 n, Nat.add_assoc] using ih (n + 1)
      . simpa [count, hk] using ih n

theorem depth_pos_iff : 0 < depth k marks ↔ Open k marks := lt_depth_iff k marks 0

instance : Decidable (Open k marks) := decidable_of_iff (0 < depth k marks) depth_pos_iff

theorem count_of_enter {stack' : List κ} {m : Mark κ} (h : enter may stack m = some stack')
    : count k (stack.count k) m = stack'.count k := by
  unfold enter at h
  split at h
  . next k' =>
    split at h
    . rw [← Option.some.inj h, count]
      by_cases hk : k' = k <;> simp [hk]
    . contradiction
  . contradiction
  . next k' stack k'' =>
    split at h
    . next heq =>
      rw [← Option.some.inj h, heq, count]
      by_cases hk : k' = k <;> simp [hk]
    . contradiction

theorem exists_of_nest_cons {stack' : List κ} {m : Mark κ}
    (h : nest may stack (m :: marks) = some stack')
    : ∃ next, enter may stack m = some next ∧ nest may next marks = some stack' := by
  rwa [nest, List.foldlM_cons, Option.bind_eq_bind, Option.bind_eq_some_iff] at h

theorem foldl_count_of_nest {stack' : List κ} (h : nest may stack marks = some stack')
    : marks.foldl (count k) (stack.count k) = stack'.count k := by
  induction marks generalizing stack with
  | nil => rw [← Option.some.inj h]; rfl
  | cons m marks ih =>
    obtain ⟨next, hnext, hrest⟩ := exists_of_nest_cons h
    rw [List.foldl_cons, count_of_enter hnext, ih hrest]

theorem depth_of_nest (h : nest may [] marks = some stack) : depth k marks = stack.count k :=
  foldl_count_of_nest h

theorem Nested.exists_nest {front back : List (Mark κ)} (h : Nested may (front ++ back))
    : ∃ stack, nest may [] front = some stack := by
  rw [Nested, nest, List.foldlM_append, Option.bind_eq_bind, Option.bind_eq_some_iff] at h
  obtain ⟨stack, hstack, _⟩ := h
  exact ⟨stack, hstack⟩

theorem nest_induction {P : List κ → Prop} {stack' : List κ}
    (h : nest may stack marks = some stack') (init : P stack)
    (opens : ∀ k stack, may k stack = true → P stack → P (k :: stack))
    (closes : ∀ k stack, P (k :: stack) → P stack)
    : P stack' := by
  induction marks generalizing stack with
  | nil => exact Option.some.inj h ▸ init
  | cons m marks ih =>
    obtain ⟨next, hnext, hrest⟩ := exists_of_nest_cons h
    refine ih hrest ?_
    unfold enter at hnext
    split at hnext
    . next k =>
      split at hnext
      . next hmay => exact Option.some.inj hnext ▸ opens k stack hmay init
      . contradiction
    . contradiction
    . next k' stack k =>
      split at hnext
      . exact Option.some.inj hnext ▸ closes k' stack init
      . contradiction

end Nesting
