import Mathlib.Data.List.Basic

/-!
This module contains the loop over a worklist: an item is taken, its visit changes a state and gives
more items, until no item is left. The fuel bounds the number of visits.
-/

universe u v

namespace Worklist

variable {α : Type u} {σ : Type v}

-- `put` adds new items to the waiting ones
def run (put : List α → List α → List α) (visit : σ → α → σ × List α) : Nat → List α → σ → Option σ
  | _, [], s => some s
  | 0, _ :: _, _ => none
  | fuel + 1, a :: rest, s => run put visit fuel (put rest (visit s a).2) (visit s a).1

def queue (rest more : List α) : List α := rest ++ more

variable {put : List α → List α → List α} {visit : σ → α → σ × List α}

@[simp]
theorem run_nil (fuel : Nat) (s : σ) : run put visit fuel [] s = some s := by
  cases fuel <;> rfl

theorem run_cons (fuel : Nat) (a : α) (rest : List α) (s : σ)
    : run put visit (fuel + 1) (a :: rest) s
        = run put visit fuel (put rest (visit s a).2) (visit s a).1 :=
  rfl

theorem run_induction {P : List α → σ → Prop}
    (hvisit : ∀ a rest s, P (a :: rest) s → P (put rest (visit s a).2) (visit s a).1) {fuel : Nat}
    {items : List α} {s s' : σ} (hrun : run put visit fuel items s = some s') (h : P items s)
    : P [] s' := by
  induction fuel generalizing items s with
  | zero =>
    cases items with
    | nil => exact Option.some.inj hrun ▸ h
    | cons a rest => simp [run] at hrun
  | succ fuel ih =>
    cases items with
    | nil => exact Option.some.inj hrun ▸ h
    | cons a rest => exact ih hrun (hvisit a rest s h)

theorem run_add {fuel : Nat} {items : List α} {s s' : σ}
    (h : run put visit fuel items s = some s') (more : Nat)
    : run put visit (fuel + more) items s = some s' := by
  induction fuel generalizing items s with
  | zero =>
    cases items with
    | nil => rwa [run_nil] at *
    | cons a rest => simp [run] at h
  | succ fuel ih =>
    cases items with
    | nil => rwa [run_nil] at *
    | cons a rest =>
      rw [Nat.add_right_comm, run_cons]
      exact ih h

theorem run_of_le {fuel fuel' : Nat} {items : List α} {s s' : σ}
    (h : run put visit fuel items s = some s') (hle : fuel ≤ fuel')
    : run put visit fuel' items s = some s' := by
  obtain ⟨more, rfl⟩ := Nat.exists_eq_add_of_le hle
  exact run_add h more

/-! ## Levels of a queue -/

def visitAll (visit : σ → α → σ × List α) : σ → List α → σ × List α
  | s, [] => (s, [])
  | s, a :: rest =>
    let (s', more) := visit s a
    let (s'', more') := visitAll visit s' rest
    (s'', more ++ more')

variable (visit) in
theorem run_queue_append (level next : List α) (s : σ) (fuel : Nat)
    : run queue visit (fuel + level.length) (level ++ next) s
        =
      run queue visit fuel (next ++ (visitAll visit s level).2) (visitAll visit s level).1 := by
  induction level generalizing next s with
  | nil => simp [visitAll]
  | cons a rest ih =>
    rw [List.cons_append, List.length_cons, ← Nat.add_assoc, run_cons, queue, List.append_assoc, ih]
    simp [visitAll]

end Worklist
