import Mathlib.Data.List.Pairwise
import Mathlib.Data.List.Perm.Basic
import Mathlib.Data.Set.Function

/-!
This module contains blocks of consecutive numbers: items that are laid out one behind the other,
and the renumbering that moves the blocks of one order to where another order of the items has them.
-/

universe u

namespace Blocks

open scoped List

variable {α : Type u} (size : α → Nat)

def place (b : Nat) : List α → List (Nat × α)
  | [] => []
  | a :: as => (b, a) :: place (b + size a) as

def stop (b : Nat) : List α → Nat
  | [] => b
  | a :: as => stop (b + size a) as

def Disjoint (x y : Nat × α) : Prop := x.1 + size x.2 ≤ y.1 ∨ y.1 + size y.2 ≤ x.1

variable {size} {b b' : Nat} {as as' : List α}

theorem map_snd_place (b : Nat) (as : List α) : (place size b as).map Prod.snd = as := by
  induction as generalizing b with
  | nil => rfl
  | cons a as ih => rw [place, List.map_cons, ih]

theorem place_append (b : Nat) (as as' : List α)
    : place size b (as ++ as') = place size b as ++ place size (stop size b as) as' := by
  induction as generalizing b with
  | nil => rfl
  | cons a as ih => rw [List.cons_append, place, place, stop, ih, List.cons_append]

theorem stop_append (b : Nat) (as as' : List α)
    : stop size b (as ++ as') = stop size (stop size b as) as' := by
  induction as generalizing b with
  | nil => rfl
  | cons a as ih => rw [List.cons_append, stop, stop, ih]

theorem le_of_mem_place {x : Nat × α} (hx : x ∈ place size b as) : b ≤ x.1 := by
  induction as generalizing b with
  | nil => contradiction
  | cons a as ih =>
    rw [place, List.mem_cons] at hx
    cases hx with
    | inl heq => rw [heq]
    | inr hx => exact Nat.le_trans (Nat.le_add_right b (size a)) (ih hx)

instance : Std.Symm (Disjoint size) := ⟨fun _ _ h => h.symm⟩

theorem place_pairwise (b : Nat) (as : List α) : (place size b as).Pairwise (Disjoint size) := by
  induction as generalizing b with
  | nil => exact List.Pairwise.nil
  | cons a as ih =>
    rw [place, List.pairwise_cons]
    exact ⟨fun x hx => Or.inl (le_of_mem_place hx), ih _⟩

variable (size) in
def Covers (x : Nat × α) (n : Nat) : Prop := x.1 ≤ n ∧ n < x.1 + size x.2

theorem not_disjoint_of_covers {x y : Nat × α} {n : Nat} (hx : Covers size x n)
    (hy : Covers size y n)
    : ¬Disjoint size x y := by
  unfold Covers at hx hy
  unfold Disjoint
  omega

theorem eq_of_covers {xs : List (Nat × α)} (h : xs.Pairwise (Disjoint size)) {x y : Nat × α}
    (hx : x ∈ xs) (hy : y ∈ xs) {n : Nat} (hxn : Covers size x n) (hyn : Covers size y n)
    : x = y := by
  by_contra hne
  exact not_disjoint_of_covers hxn hyn (h.forall hx hy hne)

theorem filter_flatMap_of_covers {β : Type*} {xs : List (Nat × α)} (h : xs.Pairwise (Disjoint size))
    {f : Nat × α → List β} {key : β → Nat} {n : Nat}
    (hkey : ∀ y ∈ xs, ∀ z ∈ f y, key z = n → Covers size y n) {x : Nat × α} (hx : x ∈ xs)
    (hxn : Covers size x n)
    : (xs.flatMap f).filter (key · = n) = (f x).filter (key · = n) := by
  induction xs with
  | nil => simp at hx
  | cons y ys ih =>
    have ⟨hhead, htail⟩ := List.pairwise_cons.mp h
    rw [List.forall_mem_cons] at hkey
    rw [List.flatMap_cons, List.filter_append]
    by_cases hyn : Covers size y n
    . have heq : x = y := eq_of_covers h hx List.mem_cons_self hxn hyn
      have hnone : (ys.flatMap f).filter (key · = n) = [] := by
        rw [List.filter_eq_nil_iff]
        intro z hz hzn
        obtain ⟨w, hw, hz⟩ := List.mem_flatMap.mp hz
        have hwn := hkey.2 w hw z hz (of_decide_eq_true hzn)
        exact not_disjoint_of_covers hyn hwn (hhead w hw)
      rw [hnone, List.append_nil, heq]
    . have hnone : (f y).filter (key · = n) = [] := by
        rw [List.filter_eq_nil_iff]
        intro z hz hzn
        exact hyn (hkey.1 z hz (of_decide_eq_true hzn))
      rw [hnone, List.nil_append]
      refine ih htail hkey.2 ?_
      cases List.mem_cons.mp hx with
      | inl heq => exact absurd (heq ▸ hxn) hyn
      | inr hx => exact hx

/-! ## Moving blocks -/

-- A block that is moved: where it starts, where it starts afterwards, and its item
abbrev Move (α : Type u) : Type u := Nat × Nat × α

namespace Move

def source (m : Move α) : Nat × α := (m.1, m.2.2)

def target (m : Move α) : Nat × α := (m.2.1, m.2.2)

variable (size) in
def Takes (m : Move α) (n : Nat) : Prop := m.1 ≤ n ∧ n < m.1 + size m.2.2

instance (m : Move α) (n : Nat) : Decidable (m.Takes size n) := inferInstanceAs (Decidable (_ ∧ _))

end Move

variable (size) in
def renumber (moves : List (Move α)) (n : Nat) : Nat :=
  match moves.find? fun m => m.Takes size n with
  | some (start, start', _) => n - start + start'
  | none => n

variable {moves : List (Move α)}

theorem disjoint_of_ne {f : Move α → Nat × α} (h : (moves.map f).Pairwise (Disjoint size))
    {m m' : Move α} (hm : m ∈ moves) (hm' : m' ∈ moves) (hne : m ≠ m')
    : Disjoint size (f m) (f m') := by
  have : Std.Symm fun m m' : Move α => Disjoint size (f m) (f m') := ⟨fun _ _ h => h.symm⟩
  exact (List.pairwise_map.mp h).forall hm hm' hne

theorem eq_of_takes (hsources : (moves.map Move.source).Pairwise (Disjoint size)) {m m' : Move α}
    (hm : m ∈ moves) (hm' : m' ∈ moves) {n : Nat} (hn : m.Takes size n) (hn' : m'.Takes size n)
    : m = m' := by
  by_contra hne
  have hdisjoint := disjoint_of_ne hsources hm hm' hne
  simp only [Disjoint, Move.source] at hdisjoint
  unfold Move.Takes at hn hn'
  omega

theorem renumber_eq (hsources : (moves.map Move.source).Pairwise (Disjoint size)) {m : Move α}
    (hm : m ∈ moves) {n : Nat} (hn : m.Takes size n)
    : renumber size moves n = n - m.1 + m.2.1 := by
  unfold renumber
  cases hfind : moves.find? fun m => m.Takes size n with
  | none =>
    have := List.find?_eq_none.mp hfind m hm
    simp [hn] at this
  | some m' =>
    have htakes : m'.Takes size n := by simpa using List.find?_some hfind
    rw [eq_of_takes hsources hm (List.mem_of_find?_eq_some hfind) hn htakes]

theorem renumber_injOn (hsources : (moves.map Move.source).Pairwise (Disjoint size))
    (htargets : (moves.map Move.target).Pairwise (Disjoint size))
    : Set.InjOn (renumber size moves) {n | ∃ m ∈ moves, m.Takes size n} := by
  rintro n ⟨m, hm, hn⟩ n' ⟨m', hm', hn'⟩ heq
  rw [renumber_eq hsources hm hn, renumber_eq hsources hm' hn'] at heq
  by_cases hsame : m = m'
  . subst hsame
    unfold Move.Takes at hn hn'
    omega
  . have hdisjoint := disjoint_of_ne htargets hm hm' hsame
    simp only [Disjoint, Move.target] at hdisjoint
    unfold Move.Takes at hn hn'
    omega

/-! ## Two orders of the same items -/

theorem exists_matching [DecidableEq α] {l : List (Nat × α)} {as : List α} (h : as ~ l.map Prod.snd)
    : ∃ l', l' ~ l ∧ l'.map Prod.snd = as ∧ ∀ a, l'.filter (·.2 = a) = l.filter (·.2 = a) := by
  induction as generalizing l with
  | nil =>
    have hnil : l = [] := by simpa using h.symm.eq_nil
    subst hnil
    exact ⟨[], .refl _, rfl, fun _ => rfl⟩
  | cons a as ih =>
    obtain ⟨x, hx, hxa⟩ := List.mem_map.mp (h.mem_iff.mp List.mem_cons_self)
    obtain ⟨x, front, back, hother, hxa, hsplit, _⟩ :=
      List.exists_of_eraseP (p := fun x : Nat × α => x.2 = a) hx (by simpa using hxa)
    rw [decide_eq_true_eq] at hxa
    subst hsplit
    have hmiddle : front ++ x :: back ~ x :: (front ++ back) := List.perm_middle
    have hrest : as ~ (front ++ back).map Prod.snd := by
      have hperm := h.trans (hmiddle.map Prod.snd)
      rw [List.map_cons, hxa] at hperm
      exact hperm.cons_inv
    obtain ⟨l', hperm, hmap, hfilter⟩ := ih hrest
    refine ⟨x :: l', (hperm.cons x).trans hmiddle.symm, by rw [List.map_cons, hxa, hmap], ?_⟩
    intro a'
    rw [List.filter_cons, hfilter, List.filter_append, List.filter_append, List.filter_cons]
    split
    . next heq =>
      have hnone : front.filter (·.2 = a') = [] := by
        rw [List.filter_eq_nil_iff]
        intro y hy
        have := hother y hy
        grind
      rw [hnone]
      rfl
    . rfl

theorem exists_moves [DecidableEq α] (size : α → Nat) (b b' : Nat) (h : as ~ as')
    : ∃ moves : List (Move α), moves.map Move.source = place size b as
        ∧ moves.map Move.target ~ place size b' as'
        ∧ ∀ a, (moves.map Move.target).filter (·.2 = a) = (place size b' as').filter (·.2 = a) := by
  have hkeys : as ~ (place size b' as').map Prod.snd := by rwa [map_snd_place]
  obtain ⟨l, hperm, hmap, hfilter⟩ := exists_matching hkeys
  refine ⟨List.zipWith (fun x y => (x.1, y.1, y.2)) (place size b as) l, ?_⟩
  have hsame : (place size b as).map Prod.snd = l.map Prod.snd := by rw [map_snd_place, hmap]
  generalize place size b as = sources at hsame ⊢
  have hboth : (List.zipWith (fun x y => (x.1, y.1, y.2)) sources l).map Move.source = sources
      ∧ (List.zipWith (fun x y => (x.1, y.1, y.2)) sources l).map Move.target = l := by
    clear hperm hmap hfilter
    induction sources generalizing l with
    | nil => cases l <;> simp_all
    | cons x sources ih =>
      cases l with
      | nil => simp at hsame
      | cons y l =>
        rw [List.map_cons, List.map_cons, List.cons.injEq] at hsame
        obtain ⟨hsources, htargets⟩ := ih l hsame.2
        simp only [List.zipWith_cons_cons, List.map_cons, hsources, htargets]
        have hx : Move.source (x.1, y.1, y.2) = x := by rw [Move.source, ← hsame.1]
        rw [hx]
        exact ⟨rfl, rfl⟩
  refine ⟨hboth.1, ?_, ?_⟩
  . rw [hboth.2]
    exact hperm
  . rw [hboth.2]
    exact hfilter

end Blocks
