import HdlGraph.Library.Rose

/-!
This module contains rose trees that are drawn from another structure: every node has a source, and
the sources of its children are inside of it. The numbers of the placed nodes then lead back to the
sources.
-/

namespace Rose

universe u v

variable {α : Type u} {γ : Type v} (child : γ → γ → Prop) (declares : γ → α → Prop)

/-- The tree is drawn from the inside of `c`. -/
inductive Drawn : γ → Rose α → Prop where
  | node {c source : γ} {label : α} {children : List (Rose α)}
      (inside : Relation.ReflTransGen child c source)
      (declared : declares source label) (drawn : ∀ t ∈ children, Drawn source t)
      : Drawn c (.node label children)

def DrawnAll (c : γ) (ts : List (Rose α)) : Prop := ∀ t ∈ ts, Drawn child declares c t

variable {child declares} {c c' : γ}

theorem Drawn.inside {t : Rose α} (h : Drawn child declares c' t)
    (hinside : Relation.ReflTransGen child c c')
    : Drawn child declares c t := by
  cases h with
  | node inside declared drawn => exact .node (hinside.trans inside) declared drawn

namespace DrawnAll

variable {ts ts' : List (Rose α)}

theorem inside (h : DrawnAll child declares c' ts) (hinside : Relation.ReflTransGen child c c')
    : DrawnAll child declares c ts :=
  fun t ht => (h t ht).inside hinside

theorem ofChild (h : DrawnAll child declares c' ts) (hchild : child c c')
    : DrawnAll child declares c ts := h.inside (.single hchild)

@[simp]
theorem nil : DrawnAll child declares c ([] : List (Rose α)) := nofun

theorem append (h : DrawnAll child declares c ts) (h' : DrawnAll child declares c ts')
    : DrawnAll child declares c (ts ++ ts') :=
  fun t ht => (List.mem_append.mp ht).elim (h t) (h' t)

theorem flatMap {β : Type*} {xs : List β} {f : β → List (Rose α)}
    (h : ∀ x ∈ xs, DrawnAll child declares c (f x))
    : DrawnAll child declares c (xs.flatMap f) := by
  intro t ht
  obtain ⟨x, hx, ht⟩ := List.mem_flatMap.mp ht
  exact h x hx t ht

theorem node {label : α} (declared : declares c label) (drawn : DrawnAll child declares c ts)
    : DrawnAll child declares c [.node label ts] := by
  intro t ht
  rw [List.mem_singleton.mp ht]
  exact .node .refl declared drawn

end DrawnAll

mutual

theorem Drawn.exists_declares {c : γ} : {t : Rose α} → Drawn child declares c t →
    ∀ label ∈ t.labels,
    ∃ source, Relation.ReflTransGen child c source ∧ declares source label
  | .node _ children, .node inside declared drawn, label, hlabel => by
    rw [labels_eq, Rose.label, Rose.children, List.mem_cons] at hlabel
    rcases hlabel with rfl | hlabel
    . exact ⟨_, inside, declared⟩
    . have hdrawn : DrawnAll child declares _ children := drawn
      obtain ⟨source, hsource, hdeclares⟩ := DrawnAll.exists_declares hdrawn label hlabel
      exact ⟨source, inside.trans hsource, hdeclares⟩

theorem DrawnAll.exists_declares {c : γ} : {ts : List (Rose α)} → DrawnAll child declares c ts →
    ∀ label ∈ labelsAll ts,
    ∃ source, Relation.ReflTransGen child c source ∧ declares source label
  | [], _, label, hlabel => by
    rw [labelsAll_nil] at hlabel
    contradiction
  | t :: ts, h, label, hlabel => by
    rw [labelsAll_cons, List.mem_append] at hlabel
    cases hlabel with
    | inl hlabel => exact Drawn.exists_declares (h t List.mem_cons_self) label hlabel
    | inr hlabel =>
      exact DrawnAll.exists_declares (fun t' ht' => h t' (List.mem_cons_of_mem t ht')) label hlabel

end

/-! ## The sources of the placed nodes -/

def Leads (child : γ → γ → Prop) (declares : γ → α → Prop) (origin : Nat → γ)
    (xs : List (Placement α)) : Prop :=
  ∀ x ∈ xs, Relation.ReflTransGen child (origin x.parent) (origin x.id)
    ∧ declares (origin x.id) x.label

theorem Leads.congr {origin origin' : Nat → γ} {xs : List (Placement α)} {n : Nat}
    (h : Leads child declares origin xs) (hsame : ∀ i < n, origin' i = origin i)
    (hlt : ∀ x ∈ xs, x.parent < n ∧ x.id < n)
    : Leads child declares origin' xs := by
  intro x hx
  rw [hsame _ (hlt x hx).1, hsame _ (hlt x hx).2]
  exact h x hx

theorem Leads.append {origin : Nat → γ} {xs ys : List (Placement α)}
    (h : Leads child declares origin xs) (h' : Leads child declares origin ys)
    : Leads child declares origin (xs ++ ys) :=
  fun x hx => (List.mem_append.mp hx).elim (h x) (h' x)

theorem lt_of_mem_place {p b : Nat} (hp : p < b) {t : Rose α} {x : Placement α}
    (hx : x ∈ place p b t)
    : x.parent < b + t.size ∧ x.id < b + t.size := by
  have hid : x.id ∈ (place p b t).map Placement.id := List.mem_map_of_mem hx
  rw [map_id_place, List.mem_range'_1] at hid
  rcases parent_place hx with hparent | hparent <;> omega

mutual

theorem exists_leads_place {p b : Nat} (hp : p < b) (origin : Nat → γ)
    : (t : Rose α) → Drawn child declares (origin p) t →
        ∃ origin' : Nat → γ, (∀ i < b, origin' i = origin i)
          ∧ Leads child declares origin' (place p b t)
  | .node label children, h => by
    cases h with
    | @node _ source _ _ inside declared drawn =>
      have hself : Function.update origin b source b = source :=
        Function.update_self b source origin
      obtain ⟨origin', hsame, hleads⟩ := exists_leads_placeAll (Nat.lt_succ_self b)
        (Function.update origin b source) children (by rw [hself]; exact drawn)
      refine ⟨origin', ?_, ?_⟩
      . intro i hi
        rw [hsame i (Nat.lt_succ_of_lt hi), Function.update_of_ne (Nat.ne_of_lt hi)]
      . intro x hx
        rw [place, List.mem_cons] at hx
        rcases hx with rfl | hx
        . rw [hsame b (Nat.lt_succ_self b), hsame p (Nat.lt_succ_of_lt hp), hself,
            Function.update_of_ne (Nat.ne_of_lt hp)]
          exact ⟨inside, declared⟩
        . exact hleads x hx

theorem exists_leads_placeAll {p b : Nat} (hp : p < b) (origin : Nat → γ)
    : (ts : List (Rose α)) → DrawnAll child declares (origin p) ts →
        ∃ origin' : Nat → γ, (∀ i < b, origin' i = origin i)
          ∧ Leads child declares origin' (placeAll p b ts)
  | [], _ => ⟨origin, fun _ _ => rfl, by simp [Leads]⟩
  | t :: ts, h => by
    obtain ⟨origin₁, hsame₁, hleads₁⟩ := exists_leads_place hp origin t (h t List.mem_cons_self)
    have hrest : DrawnAll child declares (origin₁ p) ts := by
      rw [hsame₁ p hp]
      exact fun u hu => h u (List.mem_cons_of_mem t hu)
    obtain ⟨origin₂, hsame₂, hleads₂⟩ :=
      exists_leads_placeAll (Nat.lt_add_right t.size hp) origin₁ ts hrest
    refine ⟨origin₂, ?_, ?_⟩
    . intro i hi
      rw [hsame₂ i (Nat.lt_add_right _ hi), hsame₁ i hi]
    . rw [placeAll_cons]
      exact (hleads₁.congr hsame₂ fun x hx => lt_of_mem_place hp hx).append hleads₂

end

theorem Leads.inside_root {origin : Nat → γ} {p b : Nat} {ts : List (Rose α)}
    (h : Leads child declares origin (placeAll p b ts)) {x : Placement α} (hx : x ∈ placeAll p b ts)
    : Relation.ReflTransGen child (origin p) (origin x.id) := by
  obtain ⟨n, hn⟩ : ∃ n, x.id = n := ⟨_, rfl⟩
  induction n using Nat.strong_induction_on generalizing x with
  | h n ih =>
    have hstep := (h x hx).1
    rcases parent_placeAll hx with hparent | hparent
    . rwa [hparent] at hstep
    . have hmem : x.parent ∈ (placeAll p b ts).map Placement.id := by
        have hlt := (id_mem_placeAll hx).2
        rw [map_id_placeAll, List.mem_range'_1]
        omega
      obtain ⟨y, hy, hid⟩ := List.mem_map.mp hmem
      have hbelow := ih y.id (by omega) hy rfl
      rw [hid] at hbelow
      exact hbelow.trans hstep

end Rose
