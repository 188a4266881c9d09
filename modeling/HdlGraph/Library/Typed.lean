import HdlGraph.Library.Rose

/-!
This module contains rose trees that conform to a schema: it says which labels may hang on which,
and what holds of the nodes as they are numbered when every label is where the schema lets it be.
-/

namespace Rose

universe u

variable {α : Type u} (admits : α → α → Prop)

inductive Typed : Rose α → Prop where
  | node {label : α} {children : List (Rose α)} (admitted : ∀ t ∈ children, admits label t.label)
      (typed : ∀ t ∈ children, Typed t)
      : Typed (.node label children)

/-- The trees conform, and the schema of their parent lets them be there. -/
structure TypedAll (roots : α → Prop) (ts : List (Rose α)) : Prop where
  admitted : ∀ t ∈ ts, roots t.label
  typed : ∀ t ∈ ts, Typed admits t

variable {admits} {roots : α → Prop} {ts ts' : List (Rose α)}

theorem Typed.typedAll {label : α} {children : List (Rose α)}
    (h : Typed admits (.node label children))
    : TypedAll admits (admits label) children := by
  cases h with
  | node admitted typed => exact ⟨admitted, typed⟩

namespace TypedAll

@[simp]
theorem nil : TypedAll admits roots ([] : List (Rose α)) := ⟨by simp, by simp⟩

theorem append (h : TypedAll admits roots ts) (h' : TypedAll admits roots ts')
    : TypedAll admits roots (ts ++ ts') where
  admitted t ht := (List.mem_append.mp ht).elim (h.admitted t) (h'.admitted t)
  typed t ht := (List.mem_append.mp ht).elim (h.typed t) (h'.typed t)

theorem flatMap {β : Type*} {xs : List β} {f : β → List (Rose α)}
    (h : ∀ x ∈ xs, TypedAll admits roots (f x))
    : TypedAll admits roots (xs.flatMap f) := by
  constructor
  . intro t ht
    obtain ⟨x, hx, ht⟩ := List.mem_flatMap.mp ht
    exact (h x hx).admitted t ht
  . intro t ht
    obtain ⟨x, hx, ht⟩ := List.mem_flatMap.mp ht
    exact (h x hx).typed t ht

theorem node {label : α} (hroot : roots label) (h : TypedAll admits (admits label) ts)
    : TypedAll admits roots [.node label ts] := by
  constructor
  . intro t ht
    rw [List.mem_singleton.mp ht]
    exact hroot
  . intro t ht
    rw [List.mem_singleton.mp ht]
    exact .node h.admitted h.typed

theorem of_cons {t : Rose α} (h : TypedAll admits roots (t :: ts))
    : roots t.label ∧ Typed admits t ∧ TypedAll admits roots ts where
  left := h.admitted t List.mem_cons_self
  right := ⟨h.typed t List.mem_cons_self,
    fun u hu => h.admitted u (List.mem_cons_of_mem t hu),
      fun u hu => h.typed u (List.mem_cons_of_mem t hu)⟩

end TypedAll

/-! ## The placed nodes -/

def Admitted (admits : α → α → Prop) (roots : α → Prop) (p : Nat) (xs : List (Placement α))
    : Prop :=
  ∀ x ∈ xs, x.parent = p ∧ roots x.label ∨ ∃ y ∈ xs, y.id = x.parent ∧ admits y.label x.label

theorem Admitted.append {p : Nat} {xs ys : List (Placement α)} (h : Admitted admits roots p xs)
    (h' : Admitted admits roots p ys)
    : Admitted admits roots p (xs ++ ys) := by
  intro x hx
  rcases List.mem_append.mp hx with hx | hx
  . exact (h x hx).imp_right fun h => h.imp fun y hy => ⟨List.mem_append_left ys hy.1, hy.2⟩
  . exact (h' x hx).imp_right fun h => h.imp fun y hy => ⟨List.mem_append_right xs hy.1, hy.2⟩

mutual

theorem Typed.admitted_place {r : α → Prop} (p b : Nat)
    : {t : Rose α} → r t.label → Typed admits t →
    Admitted admits r p (place p b t)
  | .node label children, hroot, h => by
    have htyped : TypedAll admits (admits label) children := h.typedAll
    have hchildren := htyped.admitted_placeAll b (b + 1)
    intro x hx
    rw [place, List.mem_cons] at hx
    rcases hx with rfl | hx
    . exact .inl ⟨rfl, hroot⟩
    . right
      rw [place]
      rcases hchildren x hx with hparent | hparent
      . exact ⟨⟨p, b, label⟩, List.mem_cons_self, hparent.1.symm, hparent.2⟩
      . exact hparent.imp fun y hy => ⟨List.mem_cons_of_mem _ hy.1, hy.2⟩

theorem TypedAll.admitted_placeAll {r : α → Prop} (p b : Nat)
    : {ts : List (Rose α)} → TypedAll admits r ts →
    Admitted admits r p (placeAll p b ts)
  | [], _ => by simp [Admitted]
  | t :: ts, h => by
    obtain ⟨hroot, ht, hts⟩ := h.of_cons
    rw [placeAll_cons]
    exact (ht.admitted_place p b hroot).append (hts.admitted_placeAll p (b + t.size))

end

theorem eq_of_id_eq {p b : Nat} {ts : List (Rose α)} {x y : Placement α} (hx : x ∈ placeAll p b ts)
    (hy : y ∈ placeAll p b ts) (hid : x.id = y.id)
    : x = y := by
  have hnodup : ((placeAll p b ts).map Placement.id).Nodup := by
    rw [map_id_placeAll]
    exact List.nodup_range'
  exact List.inj_on_of_nodup_map hnodup hx hy hid

end Rose
