import HdlGraph.Library.Worklist
import Mathlib.Data.List.Nodup

/-!
This module contains breadth-first search up to a depth, as a worklist of vertices with their
depths. What it reports is exact: every vertex within the depth is found once, at its distance.
-/

universe u v

namespace Bfs

variable {V : Type u} {ε : Type v}

def Within (starts : List V) (r : V → V → Prop) : Nat → V → Prop
  | 0, v => v ∈ starts
  | n + 1, v => Within starts r n v ∨ ∃ u, Within starts r n u ∧ r u v

def AtDistance (starts : List V) (r : V → V → Prop) (n : Nat) (v : V) : Prop :=
  Within starts r n v ∧ ∀ m < n, ¬Within starts r m v

structure Search (V : Type u) (ε : Type v) where
  visited : List V
  found : List (V × Nat × ε)

structure Exact (starts : List V) (r : V → V → Prop) (maxDepth : Nat) (found : List (V × Nat × ε))
    : Prop where
  nodup : (found.map Prod.fst).Nodup
  mem_iff : ∀ v d, (∃ label, (v, d, label) ∈ found) ↔ 0 < d ∧ d ≤ maxDepth ∧ AtDistance starts r d v

structure Grows (present : V → Prop) (d : Nat) (C : V → Prop) (s s' : Search V ε)
    (more : List (V × Nat)) : Prop where
  visited : ∀ v, v ∈ s'.visited ↔ v ∈ s.visited ∨ C v
  found : ∃ new : List (V × Nat × ε), s'.found = s.found ++ new
    ∧ more = new.map (fun x => (x.1, d + 1))
    ∧ (new.map Prod.fst).Nodup
    ∧ (∀ x ∈ new, x.2.1 = d + 1)
    ∧ ∀ v, v ∈ new.map Prod.fst ↔ v ∉ s.visited ∧ present v ∧ C v

namespace Grows

variable {present : V → Prop} {d : Nat} {C C' : V → Prop} {s s' s'' : Search V ε}
  {more more' : List (V × Nat)}

theorem refl (s : Search V ε) (h : ∀ v, ¬C v) : Grows present d C s s [] where
  visited v := by simp [h]
  found := ⟨[], by simp [h]⟩

theorem trans (h : Grows present d C s s' more) (h' : Grows present d C' s' s'' more')
    : Grows present d (fun v => C v ∨ C' v) s s'' (more ++ more') where
  visited v := by
    rw [h'.visited, h.visited]
    grind
  found := by
    obtain ⟨new, hfound, hmore, hnodup, hdepth, hmem⟩ := h.found
    obtain ⟨new', hfound', hmore', hnodup', hdepth', hmem'⟩ := h'.found
    refine ⟨new ++ new', ?_, ?_, ?_, ?_, ?_⟩
    . rw [hfound', hfound, List.append_assoc]
    . rw [hmore, hmore', List.map_append]
    . rw [List.map_append, List.nodup_append]
      refine ⟨hnodup, hnodup', ?_⟩
      intro v hv v' hv' heq
      subst heq
      have hold := ((hmem v).mp hv).2.2
      exact ((hmem' v).mp hv').1 ((h.visited v).mpr (Or.inr hold))
    . intro x hx
      cases List.mem_append.mp hx with
      | inl hx => exact hdepth x hx
      | inr hx => exact hdepth' x hx
    . intro v
      rw [List.map_append, List.mem_append, hmem, hmem', h.visited]
      grind

theorem congr (h : Grows present d C s s' more) (hC : ∀ v, C v ↔ C' v)
    : Grows present d C' s s' more := by
  have heq : C = C' := funext fun v => propext (hC v)
  exact heq ▸ h

theorem mem_visited (h : Grows present d C s s' more) {v : V} (hv : v ∈ s.visited)
    : v ∈ s'.visited :=
  (h.visited v).mpr (Or.inl hv)

end Grows

theorem grows_foldl {γ : Type*} {present : V → Prop} {d : Nat} {starts : List V} {C : γ → V → Prop}
    {step : Search V ε × List (V × Nat) → γ → Search V ε × List (V × Nat)}
    (hstep : ∀ s more c, (∀ v ∈ starts, v ∈ s.visited) →
      ∃ s' new, step (s, more) c = (s', more ++ new) ∧ Grows present d (C c) s s' new)
    (candidates : List γ) {s : Search V ε} (more : List (V × Nat))
    (hs : ∀ v ∈ starts, v ∈ s.visited)
    : ∃ s' new, candidates.foldl step (s, more) = (s', more ++ new)
        ∧ Grows present d (fun v => ∃ c ∈ candidates, C c v) s s' new := by
  induction candidates generalizing s more with
  | nil => exact ⟨s, [], by simp, .refl s (by simp)⟩
  | cons c rest ih =>
    obtain ⟨s', new, heq, hgrows⟩ := hstep s more c hs
    obtain ⟨s'', new', heq', hgrows'⟩ := ih (more ++ new) fun v hv => hgrows.mem_visited (hs v hv)
    refine ⟨s'', new ++ new', ?_, (hgrows.trans hgrows').congr (by simp)⟩
    rw [List.foldl_cons, heq, heq', List.append_assoc]

-- A visit reports and queues the neighbours that are present, and none from `maxDepth` on
structure IsVisit (starts : List V) (present : V → Prop) (neighbour : V → V → Prop) (maxDepth : Nat)
    (visit : Search V ε → V × Nat → Search V ε × List (V × Nat)) : Prop where
  grows : ∀ s u d, d < maxDepth → (∀ v ∈ starts, v ∈ s.visited) →
    Grows present d (neighbour u) s (visit s (u, d)).1 (visit s (u, d)).2
  stops : ∀ s u d, maxDepth ≤ d → visit s (u, d) = (s, [])

section

variable {starts : List V} {present : V → Prop} {neighbour : V → V → Prop} {maxDepth : Nat}
variable {visit : Search V ε → V × Nat → Search V ε × List (V × Nat)}

theorem within_succ_of_within {r : V → V → Prop} {n m : Nat} {v : V}
    (h : Within starts r n v) (hle : n ≤ m)
    : Within starts r m v := by
  induction m with
  | zero => exact Nat.le_zero.mp hle ▸ h
  | succ m ih =>
    cases Nat.le_or_eq_of_le_succ hle with
    | inl hle => exact Or.inl (ih hle)
    | inr heq =>
      subst heq
      exact h

theorem atDistance_succ_iff {r : V → V → Prop} {n : Nat} {v : V}
    : AtDistance starts r (n + 1) v
        ↔ ¬Within starts r n v ∧ ∃ u, AtDistance starts r n u ∧ r u v := by
  constructor
  . rintro ⟨hin, hout⟩
    have hnot := hout n (Nat.lt_succ_self n)
    refine ⟨hnot, ?_⟩
    obtain ⟨u, hu, hr⟩ := hin.resolve_left hnot
    refine ⟨u, ⟨hu, ?_⟩, hr⟩
    intro m hm hum
    exact hout (m + 1) (Nat.succ_lt_succ hm) (Or.inr ⟨u, hum, hr⟩)
  . rintro ⟨hnot, u, hu, hr⟩
    refine ⟨Or.inr ⟨u, hu.1, hr⟩, ?_⟩
    intro m hm hvm
    exact hnot (within_succ_of_within hvm (Nat.le_of_lt_succ hm))

theorem Exact.append {r : V → V → Prop} {n : Nat} {found new : List (V × Nat × ε)}
    (h : Exact starts r n found) (hnodup : (new.map Prod.fst).Nodup)
    (hdepth : ∀ x ∈ new, x.2.1 = n + 1)
    (hnew : ∀ v, v ∈ new.map Prod.fst ↔ AtDistance starts r (n + 1) v)
    : Exact starts r (n + 1) (found ++ new) where
  nodup := by
    rw [List.map_append, List.nodup_append]
    refine ⟨h.nodup, hnodup, ?_⟩
    intro v hv v' hv' heq
    subst heq
    obtain ⟨⟨_, d, label⟩, hx, rfl⟩ := List.mem_map.mp hv
    have hat := (h.mem_iff _ d).mp ⟨label, hx⟩
    exact ((hnew _).mp hv').2 d (Nat.lt_succ_of_le hat.2.1) hat.2.2.1
  mem_iff := by
    intro v d
    constructor
    . rintro ⟨label, hx⟩
      cases List.mem_append.mp hx with
      | inl hx =>
        have hat := (h.mem_iff v d).mp ⟨label, hx⟩
        exact ⟨hat.1, Nat.le_succ_of_le hat.2.1, hat.2.2⟩
      | inr hx =>
        have hd : d = n + 1 := hdepth _ hx
        subst hd
        exact ⟨Nat.succ_pos n, Nat.le_refl _, (hnew v).mp (List.mem_map_of_mem hx)⟩
    . rintro ⟨hpos, hle, hat⟩
      cases Nat.le_or_eq_of_le_succ hle with
      | inl hle =>
        obtain ⟨label, hx⟩ := (h.mem_iff v d).mpr ⟨hpos, hle, hat⟩
        exact ⟨label, List.mem_append_left _ hx⟩
      | inr heq =>
        subst heq
        obtain ⟨⟨_, d, label⟩, hx, rfl⟩ := List.mem_map.mp ((hnew v).mpr hat)
        have hd : d = n + 1 := hdepth _ hx
        exact ⟨label, List.mem_append_right _ (hd ▸ hx)⟩

structure Level (starts : List V) (present : V → Prop) (r : V → V → Prop) (n : Nat) (s : Search V ε)
    (level : List (V × Nat)) : Prop where
  visited_of_within : ∀ v, Within starts r n v → v ∈ s.visited
  within_of_visited : ∀ v ∈ s.visited, present v → Within starts r n v
  depth : ∀ x ∈ level, x.2 = n
  mem_iff : ∀ v, v ∈ level.map Prod.fst ↔ AtDistance starts r n v
  exact : Exact starts r n s.found

theorem visitAll_grows (h : IsVisit starts present neighbour maxDepth visit) {n : Nat}
    (hn : n < maxDepth) {level : List (V × Nat)} (hdepth : ∀ x ∈ level, x.2 = n) {s : Search V ε}
    (hs : ∀ v ∈ starts, v ∈ s.visited)
    : Grows present n (fun v => ∃ u ∈ level.map Prod.fst, neighbour u v) s
        (Worklist.visitAll visit s level).1
        (Worklist.visitAll visit s level).2 := by
  induction level generalizing s with
  | nil => exact .refl s (by simp)
  | cons x rest ih =>
    obtain ⟨u, d⟩ := x
    have hd : d = n := hdepth (u, d) List.mem_cons_self
    subst hd
    have hfirst := h.grows s u d hn hs
    have hrest :=
      ih (fun x hx => hdepth x (List.mem_cons_of_mem _ hx)) fun v hv => hfirst.mem_visited (hs v hv)
    exact (hfirst.trans hrest).congr (by simp)

theorem Level.next (h : IsVisit starts present neighbour maxDepth visit) {n : Nat}
    (hn : n < maxDepth) {s : Search V ε} {level : List (V × Nat)}
    (hlevel : Level starts present (fun u v => neighbour u v ∧ present v) n s level)
    : Level starts present (fun u v => neighbour u v ∧ present v) (n + 1)
        (Worklist.visitAll visit s level).1
        (Worklist.visitAll visit s level).2 := by
  have hstarts : ∀ v ∈ starts, v ∈ s.visited := by
    intro v hv
    exact hlevel.visited_of_within v (within_succ_of_within (n := 0) hv (Nat.zero_le n))
  have hgrows := visitAll_grows h hn hlevel.depth hstarts
  generalize Worklist.visitAll visit s level = result at *
  obtain ⟨new, hfound, hmore, hnodup, hdepth, hmem⟩ := hgrows.found
  -- The new vertices are those at the next distance
  have hnew : ∀ v, v ∈ new.map Prod.fst
      ↔ AtDistance starts (fun u v => neighbour u v ∧ present v) (n + 1) v := by
    intro v
    rw [hmem, atDistance_succ_iff]
    constructor
    . rintro ⟨hout, hpresent, u, hu, hr⟩
      refine ⟨fun hin => hout (hlevel.visited_of_within v hin), u,
        (hlevel.mem_iff u).mp hu, hr, hpresent⟩
    . rintro ⟨hout, u, hu, hr, hpresent⟩
      exact ⟨fun hin => hout (hlevel.within_of_visited v hin hpresent), hpresent, u,
        (hlevel.mem_iff u).mpr hu, hr⟩
  exact {
    visited_of_within := by
      rintro v (hin | ⟨u, hin, hr, hpresent⟩)
      . exact hgrows.mem_visited (hlevel.visited_of_within v hin)
      . by_cases hv : Within starts (fun u v => neighbour u v ∧ present v) n v
        . exact hgrows.mem_visited (hlevel.visited_of_within v hv)
        . have hat : AtDistance starts (fun u v => neighbour u v ∧ present v) (n + 1) v :=
            ⟨Or.inr ⟨u, hin, hr, hpresent⟩,
              fun m hm hvm => hv (within_succ_of_within hvm (Nat.le_of_lt_succ hm))⟩
          exact (hgrows.visited v).mpr (Or.inr ((hmem v).mp ((hnew v).mpr hat)).2.2)
    within_of_visited := by
      intro v hv hpresent
      by_cases hold : v ∈ s.visited
      . exact Or.inl (hlevel.within_of_visited v hold hpresent)
      . have hC := ((hgrows.visited v).mp hv).resolve_left hold
        exact ((hnew v).mp ((hmem v).mpr ⟨hold, hpresent, hC⟩)).1
    depth := by
      intro x hx
      rw [hmore] at hx
      obtain ⟨_, _, rfl⟩ := List.mem_map.mp hx
      rfl
    mem_iff := by
      intro v
      rw [hmore, List.map_map, ← hnew]
      exact Iff.rfl
    exact := by
      rw [hfound]
      exact hlevel.exact.append hnodup hdepth hnew
  }

theorem visitAll_of_stops (h : IsVisit starts present neighbour maxDepth visit)
    {level : List (V × Nat)} (hdepth : ∀ x ∈ level, maxDepth ≤ x.2) (s : Search V ε)
    : Worklist.visitAll visit s level = (s, []) := by
  induction level with
  | nil => rfl
  | cons x rest ih =>
    obtain ⟨u, d⟩ := x
    simp [Worklist.visitAll, h.stops s u d (hdepth _ List.mem_cons_self),
      ih fun x hx => hdepth x (List.mem_cons_of_mem _ hx)]

/-- The search ends, and it reports every vertex within the depth once, at its distance. -/
theorem run_exact (h : IsVisit starts present neighbour maxDepth visit)
    : ∃ s bound, Exact starts (fun u v => neighbour u v ∧ present v) maxDepth s.found
        ∧ ∀ fuel, bound ≤ fuel →
            Worklist.run Worklist.queue visit fuel (starts.map fun v => (v, 0)) ⟨starts, []⟩
              = some s := by
  have hlevels : ∀ more n s level, n + more = maxDepth →
      Level starts present (fun u v => neighbour u v ∧ present v) n s level →
      ∃ s' bound, Exact starts (fun u v => neighbour u v ∧ present v) maxDepth s'.found
        ∧ Worklist.run Worklist.queue visit bound level s = some s' := by
    intro more
    induction more with
    | zero =>
      intro n s level hn hlevel
      have hstop :=
        visitAll_of_stops h (fun x hx => Nat.le_of_eq (hn.symm.trans (hlevel.depth x hx).symm)) s
      refine ⟨s, level.length, hn ▸ hlevel.exact, ?_⟩
      have hrun := Worklist.run_queue_append visit level [] s 0
      rwa [List.append_nil, Nat.zero_add, hstop, List.append_nil, Worklist.run_nil] at hrun
    | succ more ih =>
      intro n s level hn hlevel
      obtain ⟨s', bound, hexact, hrun⟩ := ih (n + 1) _ _ (by omega) (hlevel.next h (by omega))
      refine ⟨s', bound + level.length, hexact, ?_⟩
      have hfirst := Worklist.run_queue_append visit level [] s bound
      rw [List.append_nil, List.nil_append] at hfirst
      rw [hfirst, hrun]
  have hinit : Level starts present (fun u v => neighbour u v ∧ present v) 0
      (⟨starts, []⟩ : Search V ε)
      (starts.map fun v => (v, 0)) := {
    visited_of_within := fun v hv => hv
    within_of_visited := fun v hv _ => hv
    depth := by simp
    mem_iff := by simp [AtDistance, Within]
    exact := ⟨by simp, by simp; omega⟩
  }
  obtain ⟨s, bound, hexact, hrun⟩ := hlevels maxDepth 0 _ _ (Nat.zero_add _) hinit
  exact ⟨s, bound, hexact, fun fuel hfuel => Worklist.run_of_le hrun hfuel⟩

end

end Bfs
