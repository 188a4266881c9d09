import Mathlib.Data.List.Nodup
import Mathlib.Logic.Relation

/-!
This module contains the depth-first search for a vertex that is accepted. The stack and the visited
vertices are explicit, and the fuel bounds the number of vertices that are taken from the stack.
-/

universe u

namespace Dfs

variable {V : Type u} [DecidableEq V] (accepts : V → Bool) (next : V → List V)

def search : Nat → List V → List V → Option Bool
  | _, [], _ => some false
  | 0, _ :: _, _ => none
  | fuel + 1, v :: stack, visited =>
    if v ∈ visited then
      search fuel stack visited
    else if accepts v then
      some true
    else
      -- What was pushed last is taken first
      search fuel ((next v).reverse ++ stack) (v :: visited)

omit [DecidableEq V] in
def Reaches : V → V → Prop := Relation.ReflTransGen fun u v => v ∈ next u

variable {accepts next} {start : V}

structure Invariant (accepts : V → Bool) (next : V → List V) (start : V) (stack visited : List V)
    : Prop where
  start_mem : start ∈ visited ∨ start ∈ stack
  reaches : ∀ v, v ∈ visited ∨ v ∈ stack → Reaches next start v
  rejects : ∀ v ∈ visited, accepts v = false
  closed : ∀ u ∈ visited, ∀ v ∈ next u, v ∈ visited ∨ v ∈ stack

namespace Invariant

variable {v : V} {stack visited : List V}

omit [DecidableEq V] in
theorem init : Invariant accepts next start [start] [] where
  start_mem := by simp
  reaches := by
    intro v hv
    rw [List.mem_singleton.mp (hv.resolve_left List.not_mem_nil)]
    exact .refl
  rejects := by simp
  closed := by simp

omit [DecidableEq V] in
theorem skip (h : Invariant accepts next start (v :: stack) visited) (hv : v ∈ visited)
    : Invariant accepts next start stack visited where
  start_mem := by
    have := h.start_mem
    grind
  reaches := by
    have := h.reaches
    grind
  rejects := h.rejects
  closed := by
    have := h.closed
    grind

omit [DecidableEq V] in
theorem expand (h : Invariant accepts next start (v :: stack) visited) (hv : accepts v = false)
    : Invariant accepts next start ((next v).reverse ++ stack) (v :: visited) where
  start_mem := by
    have := h.start_mem
    grind
  reaches := by
    have hreach := h.reaches v (Or.inr List.mem_cons_self)
    have hnext : ∀ w ∈ next v, Reaches next start w := fun w hw => hreach.tail hw
    have := h.reaches
    grind
  rejects := by
    have := h.rejects
    grind
  closed := by
    have := h.closed
    grind

omit [DecidableEq V] in
theorem rejects_of_reaches (h : Invariant accepts next start [] visited) {w : V}
    (hw : Reaches next start w)
    : accepts w = false := by
  apply h.rejects
  induction hw with
  | refl => simpa using h.start_mem
  | tail _ hstep ih => simpa using h.closed _ ih _ hstep

end Invariant

theorem search_spec {fuel : Nat} {stack visited : List V} {found : Bool}
    (h : Invariant accepts next start stack visited)
    (hsearch : search accepts next fuel stack visited = some found)
    : found = true ↔ ∃ v, Reaches next start v ∧ accepts v = true := by
  induction fuel generalizing stack visited with
  | zero =>
    cases stack with
    | nil =>
      have hfound : false = found := Option.some.inj hsearch
      have := fun w => h.rejects_of_reaches (w := w)
      grind
    | cons v stack => simp [search] at hsearch
  | succ fuel ih =>
    cases stack with
    | nil =>
      have hfound : false = found := Option.some.inj hsearch
      have := fun w => h.rejects_of_reaches (w := w)
      grind
    | cons v stack =>
      rw [search] at hsearch
      split at hsearch
      . next hvisited => exact ih (h.skip hvisited) hsearch
      . split at hsearch
        . next haccepts =>
          have hfound : true = found := Option.some.inj hsearch
          have hreach := h.reaches v (Or.inr List.mem_cons_self)
          grind
        . next hrejects => exact ih (h.expand (by simpa using hrejects)) hsearch

/-! ## Termination -/

def pushes (next : V → List V) (visited : List V) : List V → Nat
  | [] => 0
  | v :: vs => (if v ∈ visited then 0 else (next v).length) + pushes next visited vs

variable (next) in
theorem pushes_visit_le (v : V) (visited vs : List V)
    : pushes next (v :: visited) vs ≤ pushes next visited vs := by
  induction vs with
  | nil => simp [pushes]
  | cons w vs ih =>
    simp only [pushes]
    grind

variable (next) in
theorem pushes_visit {v : V} {visited vs : List V} (hv : v ∉ visited) (hmem : v ∈ vs)
    : (next v).length + pushes next (v :: visited) vs ≤ pushes next visited vs := by
  induction vs with
  | nil => simp at hmem
  | cons w vs ih =>
    have hle := pushes_visit_le next v visited vs
    by_cases hw : w = v
    . subst hw
      simp only [pushes, List.mem_cons_self, if_true, if_neg hv]
      omega
    . have hrest := ih ((List.mem_cons.mp hmem).resolve_left (Ne.symm hw))
      simp only [pushes, List.mem_cons, hw, false_or]
      omega

theorem search_isSome {vs : List V} (hvs : ∀ v, next v ≠ [] → v ∈ vs) {fuel : Nat}
    {stack visited : List V} (hfuel : stack.length + pushes next visited vs ≤ fuel)
    : ∃ found, search accepts next fuel stack visited = some found := by
  induction fuel generalizing stack visited with
  | zero =>
    have hnil : stack = [] := List.eq_nil_of_length_eq_zero (by omega)
    exact ⟨false, by rw [hnil]; rfl⟩
  | succ fuel ih =>
    cases stack with
    | nil => exact ⟨false, rfl⟩
    | cons v stack =>
      rw [List.length_cons] at hfuel
      rw [search]
      split
      . exact ih (by omega)
      . next hv =>
        split
        . exact ⟨true, rfl⟩
        . apply ih
          have hle := pushes_visit_le next v visited vs
          rw [List.length_append, List.length_reverse]
          by_cases hnext : next v = []
          . rw [hnext, List.length_nil]
            omega
          . have := pushes_visit next hv (hvs v hnext)
            omega

/--
Where finitely many vertices have neighbours, the search ends, and it finds what is reachable.
-/
theorem search_exact {vs : List V} (hvs : ∀ v, next v ≠ [] → v ∈ vs)
    : ∃ bound, ∀ start, ∃ found, (found = true ↔ ∃ v, Reaches next start v ∧ accepts v = true)
        ∧ ∀ fuel, bound ≤ fuel → search accepts next fuel [start] [] = some found := by
  refine ⟨1 + pushes next [] vs, ?_⟩
  intro start
  have hresult : ∀ fuel, 1 + pushes next [] vs ≤ fuel →
      ∃ found, search accepts next fuel [start] [] = some found :=
    fun fuel hfuel => search_isSome hvs (by simpa using hfuel)
  obtain ⟨found, hfound⟩ := hresult _ (Nat.le_refl _)
  have hspec := search_spec .init hfound
  refine ⟨found, hspec, ?_⟩
  intro fuel hfuel
  obtain ⟨found', hfound'⟩ := hresult fuel hfuel
  have hspec' := search_spec .init hfound'
  rw [hfound', Bool.eq_iff_iff.mpr (hspec'.trans hspec.symm)]

/-! ## The search for what a vertex holds -/

variable {β : Type*} (f : V → Option β)

def find (next : V → List V) : Nat → List V → List V → Option (Option β)
  | _, [], _ => some none
  | 0, _ :: _, _ => none
  | fuel + 1, v :: stack, visited =>
    if v ∈ visited then
      find next fuel stack visited
    else
      match f v with
      | some b => some (some b)
      | none => find next fuel ((next v).reverse ++ stack) (v :: visited)

variable {f}

theorem search_of_find {fuel : Nat} {stack visited : List V} {found : Option β}
    (h : find f next fuel stack visited = some found)
    : search (fun v => (f v).isSome) next fuel stack visited = some found.isSome := by
  fun_induction find f next fuel stack visited with
  | case1 => rw [search, ← Option.some.inj h]; rfl
  | case2 => contradiction
  | case3 fuel v stack visited hvisited ih => rw [search, if_pos hvisited, ih h]
  | case4 fuel v stack visited hvisited b hb =>
    rw [search, if_neg hvisited, if_pos (by rw [hb]; rfl), ← Option.some.inj h]
    rfl
  | case5 fuel v stack visited hvisited hb ih =>
    rw [search, if_neg hvisited, if_neg (by rw [hb]; exact Bool.false_ne_true), ih h]

theorem exists_of_find {fuel : Nat} {stack visited : List V} {b : β}
    (hreach : ∀ v ∈ stack, Reaches next start v)
    (h : find f next fuel stack visited = some (some b))
    : ∃ v, Reaches next start v ∧ f v = some b := by
  fun_induction find f next fuel stack visited with
  | case1 => cases h
  | case2 => contradiction
  | case3 fuel v stack visited _ ih => exact ih (List.forall_mem_cons.mp hreach).2 h
  | case4 fuel v stack visited _ b' hb =>
    exact ⟨v, hreach v List.mem_cons_self, hb.trans (Option.some.inj h)⟩
  | case5 fuel v stack visited _ _ ih =>
    rw [List.forall_mem_cons] at hreach
    refine ih ?_ h
    intro w hw
    rcases List.mem_append.mp hw with hw | hw
    . exact hreach.1.tail (List.mem_reverse.mp hw)
    . exact hreach.2 w hw

theorem find_spec {fuel : Nat} {found : Option β} (h : find f next fuel [start] [] = some found)
    : (∀ b, found = some b → ∃ v, Reaches next start v ∧ f v = some b)
        ∧ (found = none → ∀ v, Reaches next start v → f v = none) := by
  constructor
  . rintro b rfl
    refine exists_of_find ?_ h
    intro v hv
    rw [List.mem_singleton.mp hv]
    exact .refl
  . rintro rfl v hv
    have hspec := search_spec .init (search_of_find h)
    simpa using mt (fun hsome => hspec.mpr ⟨v, hv, hsome⟩) Bool.false_ne_true

end Dfs
