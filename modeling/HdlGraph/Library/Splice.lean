import Mathlib.Data.List.Infix

/-!
This module contains single pass replacement in a list: where the rule applies, its replacement is
written and the pass goes on behind what the rule takes; everywhere else the element is copied.
-/

universe u

namespace Splice

variable {α : Type u}

-- The rule looks at the rest of the list. It gives the replacement, and how many elements behind
-- the first one it takes.
def splice (rule : List α → Option (List α × Nat)) (s : List α) : List α := go 0 s
where
  go : Nat → List α → List α
  | _, [] => []
  | skip + 1, _ :: as => go skip as
  | 0, a :: as =>
    match rule (a :: as) with
    | some (new, more) => new ++ go more as
    | none => a :: go 0 as

def behind (rule : List α → Option (List α × Nat)) (s : List α) : List α :=
  match rule s with
  | some (_, more) => s.tail.drop more
  | none => s.tail

inductive Comes (rule : List α → Option (List α × Nat)) : List α → List α → Prop where
  | here (s : List α) : Comes rule s s
  | onward {s t : List α} (hs : s ≠ []) (h : Comes rule (behind rule s) t) : Comes rule s t

variable {rule rule' : List α → Option (List α × Nat)}

theorem go_eq_splice_drop (skip : Nat) (s : List α)
    : splice.go rule skip s = splice rule (s.drop skip) := by
  induction s generalizing skip with
  | nil => cases skip <;> rfl
  | cons a as ih =>
    cases skip with
    | zero => rfl
    | succ skip => exact ih skip

theorem splice_of_some {a : α} {as new : List α} {more : Nat}
    (h : rule (a :: as) = some (new, more))
    : splice rule (a :: as) = new ++ splice rule (as.drop more) := by
  rw [splice, splice.go, h]
  exact congrArg (new ++ ·) (go_eq_splice_drop more as)

theorem splice_of_none {a : α} {as : List α} (h : rule (a :: as) = none)
    : splice rule (a :: as) = a :: splice rule as := by
  rw [splice, splice.go, h]
  rfl

theorem behind_of_some {a : α} {as new : List α} {more : Nat}
    (h : rule (a :: as) = some (new, more))
    : behind rule (a :: as) = as.drop more := by
  rw [behind, h]
  rfl

theorem behind_of_none {a : α} {as : List α} (h : rule (a :: as) = none)
    : behind rule (a :: as) = as := by
  rw [behind, h]
  rfl

theorem behind_suffix (s : List α) : behind rule s <:+ s := by
  unfold behind
  split
  . exact (List.drop_suffix _ _).trans (List.tail_suffix s)
  . exact List.tail_suffix s

theorem length_behind_lt (a : α) (as : List α)
    : (behind rule (a :: as)).length < (a :: as).length := by
  unfold behind
  split
  . simp only [List.tail_cons, List.length_drop, List.length_cons]
    omega
  . simp

theorem places_induction (rule : List α → Option (List α × Nat)) {motive : List α → Prop}
    (nil : motive []) (place : ∀ a as, motive (behind rule (a :: as)) → motive (a :: as))
    (s : List α)
    : motive s := by
  match s with
  | [] => exact nil
  | a :: as => exact place a as (places_induction rule nil place (behind rule (a :: as)))
termination_by s.length
decreasing_by exact length_behind_lt a as

theorem Comes.suffix {s t : List α} (h : Comes rule s t) : t <:+ s := by
  induction h with
  | here s => exact List.suffix_rfl
  | onward _ _ ih => exact ih.trans (behind_suffix _)

theorem Comes.trans {s t r : List α} (h : Comes rule s t) (h' : Comes rule t r)
    : Comes rule s r := by
  induction h with
  | here s => exact h'
  | onward hs _ ih => exact .onward hs (ih h')

theorem comes_nil (s : List α) : Comes rule s [] := by
  induction s using places_induction rule with
  | nil => exact .here []
  | place a as ih => exact .onward (List.cons_ne_nil a as) ih

theorem Comes.exists_splice_eq {s t : List α} (h : Comes rule s t)
    : ∃ front, splice rule s = front ++ splice rule t := by
  induction h with
  | here s => exact ⟨[], rfl⟩
  | onward hs _ ih =>
    next s t =>
    obtain ⟨a, as, rfl⟩ := List.exists_cons_of_ne_nil hs
    obtain ⟨front, hfront⟩ := ih
    cases hrule : rule (a :: as) with
    | some taken =>
      rw [behind_of_some hrule] at hfront
      exact ⟨taken.1 ++ front, by rw [splice_of_some hrule, hfront, List.append_assoc]⟩
    | none =>
      rw [behind_of_none hrule] at hfront
      exact ⟨a :: front, by rw [splice_of_none hrule, hfront, List.cons_append]⟩

theorem behind_congr {s : List α} (h : rule s = rule' s) : behind rule s = behind rule' s := by
  unfold behind
  rw [h]

theorem Comes.congr {s t : List α} (h : ∀ r, Comes rule s r → rule r = rule' r)
    (hcomes : Comes rule' s t)
    : Comes rule s t := by
  induction hcomes with
  | here s => exact .here s
  | onward hs _ ih =>
    have hbehind := behind_congr (h _ (.here _))
    apply Comes.onward hs
    rw [hbehind]
    apply ih
    intro r hr
    rw [← hbehind] at hr
    exact h r (.onward hs hr)

theorem splice_congr {s : List α} (h : ∀ t, Comes rule s t → rule t = rule' t)
    : splice rule s = splice rule' s := by
  induction s using places_induction rule with
  | nil => rfl
  | place a as ih =>
    have hrule := h (a :: as) (.here _)
    have hrest := ih fun t ht => h t (.onward (List.cons_ne_nil a as) ht)
    cases hat : rule (a :: as) with
    | some taken =>
      rw [behind_of_some hat] at hrest
      rw [splice_of_some hat, splice_of_some (hrule.symm.trans hat), hrest]
    | none =>
      rw [behind_of_none hat] at hrest
      rw [splice_of_none hat, splice_of_none (hrule.symm.trans hat), hrest]

theorem splice_append_of_none {s : List α} (t : List α) (h : ∀ a ∈ s, ∀ as, rule (a :: as) = none)
    : splice rule (s ++ t) = s ++ splice rule t := by
  induction s with
  | nil => rfl
  | cons a as ih =>
    rw [List.cons_append, splice_of_none (h a List.mem_cons_self _),
      ih fun b hb => h b (List.mem_cons_of_mem a hb)]
    rfl

theorem comes_append_of_none {s : List α} (t : List α) (h : ∀ a ∈ s, ∀ as, rule (a :: as) = none)
    : Comes rule (s ++ t) t := by
  induction s with
  | nil => exact .here t
  | cons a as ih =>
    rw [List.cons_append]
    apply Comes.onward (List.cons_ne_nil _ _)
    rw [behind_of_none (h a List.mem_cons_self _)]
    exact ih fun b hb => h b (List.mem_cons_of_mem a hb)

theorem length_splice_le {s : List α} (h : ∀ t, Comes rule s t → ∀ taken ∈ rule t, taken.1 = [])
    : (splice rule s).length ≤ s.length := by
  induction s using places_induction rule with
  | nil => exact Nat.le_refl _
  | place a as ih =>
    have hrest := ih fun t ht => h t (.onward (List.cons_ne_nil a as) ht)
    have hlt : (behind rule (a :: as)).length < (a :: as).length := length_behind_lt a as
    cases hat : rule (a :: as) with
    | some taken =>
      rw [behind_of_some hat] at hrest hlt
      rw [splice_of_some hat, h _ (.here _) taken hat, List.nil_append]
      omega
    | none =>
      rw [behind_of_none hat] at hrest
      rw [splice_of_none hat, List.length_cons, List.length_cons]
      omega

theorem length_splice_lt {s t : List α} (h : ∀ t, Comes rule s t → ∀ taken ∈ rule t, taken.1 = [])
    (hcomes : Comes rule s t) (ht : rule t ≠ none) (hne : t ≠ [])
    : (splice rule s).length < s.length := by
  induction hcomes with
  | here s =>
    obtain ⟨a, as, rfl⟩ := List.exists_cons_of_ne_nil hne
    obtain ⟨taken, hat⟩ := Option.ne_none_iff_exists'.mp ht
    have hle : (splice rule (behind rule (a :: as))).length ≤ (behind rule (a :: as)).length :=
      length_splice_le fun t ht => h t (.onward (List.cons_ne_nil a as) ht)
    have hlt : (behind rule (a :: as)).length < (a :: as).length := length_behind_lt a as
    rw [behind_of_some hat] at hle hlt
    rw [splice_of_some hat, h _ (.here _) taken hat, List.nil_append]
    omega
  | onward hs _ ih =>
    next s t _ =>
    obtain ⟨a, as, rfl⟩ := List.exists_cons_of_ne_nil hs
    have hrest := ih (fun t ht => h t (.onward hs ht)) ht hne
    have hlt : (behind rule (a :: as)).length < (a :: as).length := length_behind_lt a as
    cases hat : rule (a :: as) with
    | some taken =>
      rw [behind_of_some hat] at hrest hlt
      rw [splice_of_some hat, h _ (.here _) taken hat, List.nil_append]
      omega
    | none =>
      rw [behind_of_none hat] at hrest
      rw [splice_of_none hat, List.length_cons, List.length_cons]
      omega

-- The rest of the result begins within the replacement at a place, or with the element that is
-- copied there
def BeginsAt (rule : List α → Option (List α × Nat)) (a : α) (as rest : List α) : Prop :=
  (∃ new more part, rule (a :: as) = some (new, more) ∧ part ≠ [] ∧ part <:+ new
      ∧ rest = part ++ splice rule (as.drop more))
    ∨ (rule (a :: as) = none ∧ rest = a :: splice rule as)

theorem exists_beginsAt {s rest : List α} (hrest : rest <:+ splice rule s) (hne : rest ≠ [])
    : ∃ a as, Comes rule s (a :: as) ∧ BeginsAt rule a as rest := by
  induction s using places_induction rule with
  | nil => exact absurd (List.suffix_nil.mp hrest) hne
  | place a as ih =>
    have hlater (h : rest <:+ splice rule (behind rule (a :: as)))
        : ∃ b bs, Comes rule (a :: as) (b :: bs) ∧ BeginsAt rule b bs rest := by
      obtain ⟨b, bs, hcomes, hbegins⟩ := ih h
      exact ⟨b, bs, .onward (List.cons_ne_nil a as) hcomes, hbegins⟩
    cases hat : rule (a :: as) with
    | some taken =>
      rw [behind_of_some hat] at hlater
      rw [splice_of_some hat] at hrest
      obtain ⟨front, hfront⟩ := hrest
      obtain ⟨part, hnew, hpart⟩ | ⟨more, _, hmore⟩ := List.append_eq_append_iff.mp hfront
      . cases part with
        | nil => exact hlater (by rw [hpart]; exact List.suffix_rfl)
        | cons b bs =>
          exact ⟨a, as, .here _,
            Or.inl ⟨_, _, b :: bs, hat, List.cons_ne_nil b bs, ⟨front, hnew.symm⟩, hpart⟩⟩
      . exact hlater ⟨more, hmore.symm⟩
    | none =>
      rw [behind_of_none hat] at hlater
      rw [splice_of_none hat] at hrest
      obtain rfl | h := List.suffix_cons_iff.mp hrest
      . exact ⟨a, as, .here _, Or.inr ⟨hat, rfl⟩⟩
      . exact hlater h

end Splice
