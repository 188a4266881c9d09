import Mathlib.Data.List.Basic
import Mathlib.Data.Nat.Notation
import Mathlib.Logic.Relation
import Mathlib.Order.Basic

/-!
This module contains recursive walks that keep no set of visited vertices, as functions with fuel,
and the rule for their termination: a rank that falls with every recursive call.
-/

universe u v

namespace Walk

variable {ν : Type u} {β : Type v}

-- What a visit does with one of its edges: it writes `output`, then it may recurse
structure Step (ν : Type u) (β : Type v) where
  output : List β
  next : Option ν

def collect (recurse : ν → Option (List β)) : List (Step ν β) → Option (List β)
  | [] => some []
  | step :: rest =>
    match step.next with
    | none => (collect recurse rest).map (step.output ++ ·)
    | some w =>
      match recurse w, collect recurse rest with
      | some below, some after => some (step.output ++ below ++ after)
      | _, _ => none

-- The walk from a vertex, as it would be written; `none` if the fuel does not suffice
def run (steps : Nat → ν → List (Step ν β)) : Nat → Nat → ν → Option (List β)
  | 0, _, _ => none
  | fuel + 1, depth, v => collect (run steps fuel (depth + 1)) (steps depth v)

def Terminates (steps : Nat → ν → List (Step ν β)) (depth : Nat) (v : ν) : Prop :=
  ∃ out bound, ∀ fuel, bound < fuel → run steps fuel depth v = some out

def climb (step : ν → β ⊕ ν) : Nat → ν → Option β
  | 0, _ => none
  | fuel + 1, v =>
    match step v with
    | .inl result => some result
    | .inr w => climb step fuel w

def ClimbTerminates (step : ν → β ⊕ ν) (v : ν) : Prop :=
  ∃ result bound, ∀ fuel, bound < fuel → climb step fuel v = some result

theorem collect_congr {recurse recurse' : ν → Option (List β)} {steps : List (Step ν β)}
    (h : ∀ step ∈ steps, ∀ w, step.next = some w → recurse w = recurse' w)
    : collect recurse steps = collect recurse' steps := by
  induction steps with
  | nil => rfl
  | cons step rest ih =>
    have hrest := ih fun step' hstep => h step' (List.mem_cons_of_mem _ hstep)
    have hstep := h step List.mem_cons_self
    unfold collect
    rw [hrest]
    split
    . rfl
    . next w hw => rw [hstep w hw]

theorem collect_isSome {recurse : ν → Option (List β)} {steps : List (Step ν β)}
    (h : ∀ step ∈ steps, ∀ w, step.next = some w → (recurse w).isSome)
    : (collect recurse steps).isSome := by
  induction steps with
  | nil => rfl
  | cons step rest ih =>
    have ⟨after, hafter⟩ :=
      Option.isSome_iff_exists.mp (ih fun step' hstep => h step' (List.mem_cons_of_mem _ hstep))
    have hstep := h step List.mem_cons_self
    unfold collect
    rw [hafter]
    split
    . rfl
    . next w hw =>
      have ⟨below, hbelow⟩ := Option.isSome_iff_exists.mp (hstep w hw)
      rw [hbelow]
      rfl

theorem isSome_of_collect {recurse : ν → Option (List β)} {steps : List (Step ν β)}
    (h : (collect recurse steps).isSome)
    : ∀ step ∈ steps, ∀ w, step.next = some w → (recurse w).isSome := by
  induction steps with
  | nil => simp
  | cons first rest ih =>
    unfold collect at h
    intro step hstep w hw
    rcases List.mem_cons.mp hstep with rfl | hstep
    . rw [hw] at h
      cases hbelow : recurse w with
      | none => simp [hbelow] at h
      | some below => rfl
    . refine ih ?_ step hstep w hw
      cases hafter : collect recurse rest with
      | none => split at h <;> simp [hafter] at h
      | some after => rfl

theorem collect_eq_flatMap {recurse : ν → Option (List β)} {below : ν → List β}
    {visit : List (Step ν β)}
    (h : ∀ step ∈ visit, ∀ w, step.next = some w → recurse w = some (below w))
    : collect recurse visit
        = some (visit.flatMap fun step => step.output ++ step.next.elim [] below) := by
  induction visit with
  | nil => rfl
  | cons step rest ih =>
    have hrest := ih fun step' hstep => h step' (List.mem_cons_of_mem _ hstep)
    have hstep := h step List.mem_cons_self
    unfold collect
    rw [hrest, List.flatMap_cons]
    split
    . next hnone => rw [hnone, Option.map_some, Option.elim_none, List.append_nil]
    . next w hw =>
      rw [hstep w hw, hw]
      rfl

theorem collect_of_leaves {recurse : ν → Option (List β)} {visit : List (Step ν β)}
    (h : ∀ step ∈ visit, ∀ w, step.next = some w → recurse w = some [])
    : collect recurse visit = some (visit.flatMap Step.output) := by
  have hvisit : collect recurse visit
      = some (visit.flatMap fun step => step.output ++ step.next.elim [] fun _ => []) :=
    collect_eq_flatMap h
  rw [hvisit, Option.some.injEq]
  apply List.flatMap_congr
  intro step _
  cases step.next <;> exact List.append_nil _

theorem collect_mono {recurse recurse' : ν → Option (List β)} {visit : List (Step ν β)}
    {out : List β} (hrecurse : ∀ w below, recurse w = some below → recurse' w = some below)
    (h : collect recurse visit = some out)
    : collect recurse' visit = some out := by
  rw [← h]
  symm
  apply collect_congr
  intro step hstep w hw
  obtain ⟨below, hbelow⟩ := Option.isSome_iff_exists.mp
    (isSome_of_collect (Option.isSome_iff_exists.mpr ⟨out, h⟩) step hstep w hw)
  rw [hbelow, hrecurse w below hbelow]

theorem run_of_le {steps : Nat → ν → List (Step ν β)} {fuel fuel' depth : Nat} {v : ν}
    {out : List β} (hle : fuel ≤ fuel') (h : run steps fuel depth v = some out)
    : run steps fuel' depth v = some out := by
  induction fuel generalizing fuel' depth v out with
  | zero => simp [run] at h
  | succ fuel ih =>
    obtain ⟨more, rfl⟩ : ∃ more, fuel' = more + 1 := ⟨fuel' - 1, by omega⟩
    exact collect_mono (fun _ _ => ih (by omega)) h

theorem collect_of_le {steps : Nat → ν → List (Step ν β)} {fuel fuel' depth : Nat}
    {visit : List (Step ν β)} {out : List β} (hle : fuel ≤ fuel')
    (h : collect (run steps fuel depth) visit = some out)
    : collect (run steps fuel' depth) visit = some out :=
  collect_mono (fun _ _ => run_of_le hle) h

theorem collect_of_terminates {steps : Nat → ν → List (Step ν β)} {depth : Nat}
    {visit : List (Step ν β)}
    (h : ∀ step ∈ visit, ∀ w, step.next = some w → Terminates steps depth w)
    : ∃ out bound, ∀ fuel, bound < fuel → collect (run steps fuel depth) visit = some out := by
  have hbound : ∃ bound, ∀ step ∈ visit, ∀ w, step.next = some w →
      ∃ out, ∀ fuel, bound < fuel → run steps fuel depth w = some out := by
    induction visit with
    | nil => exact ⟨0, by simp⟩
    | cons first rest ih =>
      obtain ⟨bound, hrest⟩ := ih fun step hstep => h step (List.mem_cons_of_mem _ hstep)
      have hfirst : ∃ bound, ∀ w, first.next = some w →
          ∃ out, ∀ fuel, bound < fuel → run steps fuel depth w = some out := by
        cases hnext : first.next with
        | none => exact ⟨0, by simp⟩
        | some w =>
          obtain ⟨out, bound, hout⟩ := h first List.mem_cons_self w hnext
          refine ⟨bound, ?_⟩
          rintro w' ⟨rfl⟩
          exact ⟨out, hout⟩
      obtain ⟨bound', hfirst⟩ := hfirst
      refine ⟨max bound bound', ?_⟩
      intro step hstep w hw
      rcases List.mem_cons.mp hstep with rfl | hstep
      . obtain ⟨out, hout⟩ := hfirst w hw
        exact ⟨out, fun fuel hfuel => hout fuel (by omega)⟩
      . obtain ⟨out, hout⟩ := hrest step hstep w hw
        exact ⟨out, fun fuel hfuel => hout fuel (by omega)⟩
  obtain ⟨bound, hbound⟩ := hbound
  have hcall : ∀ fuel, bound < fuel → ∀ step ∈ visit, ∀ w, step.next = some w →
      run steps fuel depth w = run steps (bound + 1) depth w := by
    intro fuel hfuel step hstep w hw
    obtain ⟨out, hout⟩ := hbound step hstep w hw
    rw [hout fuel hfuel, hout (bound + 1) (Nat.lt_succ_self _)]
  have hsome : (collect (run steps (bound + 1) depth) visit).isSome := by
    refine collect_isSome fun step hstep w hw => ?_
    obtain ⟨out, hout⟩ := hbound step hstep w hw
    rw [hout (bound + 1) (Nat.lt_succ_self _)]
    rfl
  obtain ⟨result, hresult⟩ := Option.isSome_iff_exists.mp hsome
  exact ⟨result, bound, fun fuel hfuel => hresult ▸ collect_congr (hcall fuel hfuel)⟩

section

variable {steps : Nat → ν → List (Step ν β)} (rank : ν → Nat)

theorem run_of_rank
    (h : ∀ depth v, ∀ step ∈ steps depth v, ∀ w, step.next = some w → rank w < rank v)
    (fuel depth : Nat) (v : ν) (hfuel : rank v < fuel)
    : (run steps fuel depth v).isSome
        ∧ run steps fuel depth v = run steps (rank v + 1) depth v := by
  induction hrank : rank v using Nat.strongRecOn generalizing fuel depth v with
  | ind n ih =>
    subst hrank
    have ⟨more, hmore⟩ : ∃ more, fuel = more + 1 := ⟨fuel - 1, by omega⟩
    subst hmore
    have hcall : ∀ step ∈ steps depth v, ∀ w, step.next = some w →
        (run steps more (depth + 1) w).isSome
        ∧ run steps more (depth + 1) w = run steps (rank v) (depth + 1) w := by
      intro step hstep w hw
      have hlt := h depth v step hstep w hw
      have hmore := ih (rank w) hlt more (depth + 1) w (by omega) rfl
      have hrank := ih (rank w) hlt (rank v) (depth + 1) w hlt rfl
      exact ⟨hmore.1, hmore.2.trans hrank.2.symm⟩
    constructor
    . exact collect_isSome fun step hstep w hw => (hcall step hstep w hw).1
    . exact collect_congr fun step hstep w hw => (hcall step hstep w hw).2

theorem terminates_of_rank
    (h : ∀ depth v, ∀ step ∈ steps depth v, ∀ w, step.next = some w → rank w < rank v)
    (depth : Nat) (v : ν)
    : Terminates steps depth v := by
  have ⟨out, hout⟩ :=
    Option.isSome_iff_exists.mp (run_of_rank rank h (rank v + 1) depth v (Nat.lt_succ_self _)).1
  refine ⟨out, rank v, ?_⟩
  intro fuel hfuel
  rw [(run_of_rank rank h fuel depth v hfuel).2, hout]

end

/-! ## Other outputs of the same walk -/

def Step.bind {γ : Type*} (f : β → List γ) (step : Step ν β) : Step ν γ :=
  ⟨step.output.flatMap f, step.next⟩

theorem collect_bind {γ : Type*} (f : β → List γ) (recurse : ν → Option (List β))
    (steps : List (Step ν β))
    : collect (fun w => (recurse w).map (·.flatMap f)) (steps.map (Step.bind f))
        = (collect recurse steps).map (·.flatMap f) := by
  induction steps with
  | nil => rfl
  | cons step rest ih =>
    rw [List.map_cons, collect, collect, ih]
    cases hnext : step.next with
    | none => cases collect recurse rest <;> simp [Step.bind, hnext]
    | some w => cases hw : recurse w <;> cases collect recurse rest <;> simp [Step.bind, hnext, hw]

theorem run_bind {γ : Type*} (f : β → List γ) (steps : Nat → ν → List (Step ν β))
    (fuel depth : Nat) (v : ν)
    : run (fun depth v => (steps depth v).map (Step.bind f)) fuel depth v
        = (run steps fuel depth v).map (·.flatMap f) := by
  induction fuel generalizing depth v with
  | zero => rfl
  | succ fuel ih =>
    rw [run, run, ← collect_bind]
    congr 1
    funext w
    exact ih (depth + 1) w

/-! ## Loops -/

section

variable {step : ν → β ⊕ ν}

def Ends (step : ν → β ⊕ ν) (v : ν) (result : β) : Prop :=
  ∃ bound, ∀ fuel, bound < fuel → climb step fuel v = some result

def Goes (step : ν → β ⊕ ν) (v w : ν) : Prop := step v = .inr w

theorem climb_of_le {fuel fuel' : Nat} {v : ν} {result : β} (hle : fuel ≤ fuel')
    (h : climb step fuel v = some result)
    : climb step fuel' v = some result := by
  induction fuel generalizing fuel' v with
  | zero => simp [climb] at h
  | succ fuel ih =>
    obtain ⟨more, rfl⟩ : ∃ more, fuel' = more + 1 := ⟨fuel' - 1, by omega⟩
    rw [climb] at h ⊢
    split at h
    . exact h
    . exact ih (by omega) h

theorem ends_of_climb {fuel : Nat} {v : ν} {result : β} (h : climb step fuel v = some result)
    : Ends step v result :=
  ⟨fuel, fun _ hfuel => climb_of_le (Nat.le_of_lt hfuel) h⟩

theorem exists_mapM_climb {α γ : Type*} {vertex : α → ν} {write : α → β → γ} {result : ν → β}
    (h : ∀ v, Ends step v (result v)) (xs : List α)
    : ∃ bound, ∀ fuel, bound < fuel →
        (xs.mapM fun x => (climb step fuel (vertex x)).map (write x))
        = some (xs.map fun x => write x (result (vertex x))) := by
  induction xs with
  | nil => exact ⟨0, fun _ _ => rfl⟩
  | cons x xs ih =>
    obtain ⟨bound, hbound⟩ := h (vertex x)
    obtain ⟨bound', hbound'⟩ := ih
    refine ⟨max bound bound', fun fuel hfuel => ?_⟩
    rw [List.mapM_cons, hbound fuel (Nat.lt_of_le_of_lt (Nat.le_max_left _ _) hfuel),
      hbound' fuel (Nat.lt_of_le_of_lt (Nat.le_max_right _ _) hfuel)]
    rfl

theorem Ends.unique {v : ν} {result result' : β} (h : Ends step v result) (h' : Ends step v result')
    : result = result' := by
  obtain ⟨bound, hbound⟩ := h
  obtain ⟨bound', hbound'⟩ := h'
  have hsome := hbound (bound + bound' + 1) (by omega)
  rw [hbound' (bound + bound' + 1) (by omega)] at hsome
  exact (Option.some.inj hsome).symm

theorem climb_induction {P : ν → Prop} {Q : β → Prop} (next : ∀ v w, P v → step v = .inr w → P w)
    (stop : ∀ v result, P v → step v = .inl result → Q result) {fuel : Nat} {v : ν} {result : β}
    (hv : P v) (h : climb step fuel v = some result)
    : Q result := by
  induction fuel generalizing v with
  | zero => simp [climb] at h
  | succ fuel ih =>
    rw [climb] at h
    split at h
    . next result' hstep =>
      obtain rfl := Option.some.inj h
      exact stop v _ hv hstep
    . next w hstep => exact ih (next v w hv hstep) h

theorem climb_isSome_of_rank {P : ν → Prop} (rank : ν → Nat)
    (h : ∀ v w, P v → step v = .inr w → P w ∧ rank w < rank v) {fuel : Nat} {v : ν} (hv : P v)
    (hfuel : rank v < fuel)
    : (climb step fuel v).isSome := by
  induction fuel generalizing v with
  | zero => omega
  | succ fuel ih =>
    rw [climb]
    split
    . rfl
    . next w hstep =>
      have ⟨hw, hlt⟩ := h v w hv hstep
      exact ih hw (by omega)

theorem climb_of_fixed {v : ν} (h : step v = .inr v) (fuel : Nat) : climb step fuel v = none := by
  induction fuel with
  | zero => rfl
  | succ fuel ih =>
    rw [climb, h]
    exact ih

theorem climb_of_goes {v w : ν} (h : Relation.ReflTransGen (Goes step) v w) {fuel : Nat}
    {result : β} (hclimb : climb step fuel v = some result)
    : ∃ fuel', climb step fuel' w = some result := by
  induction h with
  | refl => exact ⟨fuel, hclimb⟩
  | @tail u w _ hstep ih =>
    obtain ⟨fuel', hfuel'⟩ := ih
    cases fuel' with
    | zero => simp [climb] at hfuel'
    | succ fuel' =>
      rw [climb, show step u = .inr w from hstep] at hfuel'
      exact ⟨fuel', hfuel'⟩

theorem climbTerminates_of_rank (rank : ν → Nat)
    (h : ∀ v w, step v = .inr w → rank w < rank v) (v : ν)
    : ClimbTerminates step v := by
  have hsome : (climb step (rank v + 1) v).isSome :=
    climb_isSome_of_rank (P := fun _ => True) rank (fun v w _ hstep => ⟨trivial, h v w hstep⟩)
      trivial (Nat.lt_succ_self _)
  obtain ⟨result, hresult⟩ := Option.isSome_iff_exists.mp hsome
  exact ⟨result, ends_of_climb hresult⟩

end

theorem acyclic_of_rank {r : ν → ν → Prop} (rank : ν → Nat)
    (h : ∀ v w, r v w → rank v < rank w) (v : ν)
    : ¬Relation.TransGen r v v := by
  intro hcycle
  have hlift : Relation.TransGen (· < ·) (rank v) (rank v) := hcycle.lift rank h
  rw [Relation.transGen_eq_self] at hlift
  exact Nat.lt_irrefl _ hlift

end Walk
