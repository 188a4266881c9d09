import HdlGraph.Library.Walk
import Mathlib.Algebra.Order.BigOperators.Group.List
import Mathlib.Algebra.Order.Group.Nat
import Mathlib.Data.Fintype.Card
import Mathlib.Data.List.Perm.Basic
import Mathlib.Data.Set.Finite.Basic

/-!
This module contains what a recursive walk without a set of visited vertices goes over: the listing
of the trees below a vertex, with the depth of each visit. There is one exactly if no cycle can be
entered, and in a forest it has every vertex once.
-/

universe u v

namespace Forest

open scoped List
open Relation

variable {V : Type u} {β : Type v} (next : V → List V)

def Step (v w : V) : Prop := w ∈ next v

-- The trees of some siblings at depth `d` in preorder
inductive Listing : Nat → List V → List (Nat × V) → Prop where
  | nil (d : Nat) : Listing d [] []
  | cons {d : Nat} {v : V} {vs : List V} {below after : List (Nat × V)}
      (hbelow : Listing (d + 1) (next v) below)
    (hafter : Listing d vs after) : Listing d (v :: vs) ((d, v) :: (below ++ after))

-- A part of a graph, closed under its steps, where no vertex is entered in two ways
structure ForestOn (S : V → Prop) : Prop where
  closed : ∀ v w, S v → w ∈ next v → S w
  nodup : ∀ v, S v → (next v).Nodup
  parent : ∀ u v w, S u → S v → w ∈ next u → w ∈ next v → u = v
  acyclic : ∀ v, S v → ¬TransGen (Step next) v v

/-- No tree of a vertex in the list is part of the tree of another one. -/
structure Apart (vs : List V) : Prop where
  nodup : vs.Nodup
  notBelow : ∀ v ∈ vs, ∀ w ∈ vs, ¬TransGen (Step next) v w

variable {next}

theorem transGen_filter {kept : V → Bool} {v w : V} (hvw : TransGen (Step next) v w) (hw : kept w)
    (hway : ∀ u, TransGen (Step next) v u → TransGen (Step next) u w → kept u)
    : TransGen (Step fun v => (next v).filter kept) v w := by
  induction hvw with
  | single hstep => exact .single (List.mem_filter.mpr ⟨hstep, hw⟩)
  | @tail b c hvb hbc ih =>
    have hb : TransGen (Step fun v => (next v).filter kept) v b := by
      refine ih (hway b hvb (.single hbc)) ?_
      intro u hvu hub
      exact hway u hvu (hub.tail hbc)
    exact hb.tail (List.mem_filter.mpr ⟨hbc, hw⟩)

/-! ## What is listed -/

namespace Listing

variable {d : Nat} {vs : List V} {out : List (Nat × V)}

theorem le_depth (h : Listing next d vs out) {x : Nat × V} (hx : x ∈ out) : d ≤ x.1 := by
  induction h with
  | nil => simp at hx
  | cons hbelow hafter ihbelow ihafter =>
    rw [List.mem_cons, List.mem_append] at hx
    rcases hx with rfl | hx | hx
    . exact Nat.le_refl _
    . exact Nat.le_of_succ_le (ihbelow hx)
    . exact ihafter hx

theorem mem_iff (h : Listing next d vs out) {u : V}
    : u ∈ out.map Prod.snd ↔ ∃ v ∈ vs, ReflTransGen (Step next) v u := by
  induction h with
  | nil => simp
  | @cons d v vs below after hbelow hafter ihbelow ihafter =>
    rw [List.map_cons, List.map_append, List.mem_cons, List.mem_append, ihbelow, ihafter]
    constructor
    . rintro (rfl | ⟨w, hw, hreach⟩ | ⟨w, hw, hreach⟩)
      . exact ⟨u, List.mem_cons_self, .refl⟩
      . exact ⟨v, List.mem_cons_self, .head hw hreach⟩
      . exact ⟨w, List.mem_cons_of_mem _ hw, hreach⟩
    . rintro ⟨w, hw, hreach⟩
      rcases List.mem_cons.mp hw with rfl | hw
      . rcases hreach.cases_head with rfl | ⟨c, hc, hreach⟩
        . exact Or.inl rfl
        . exact Or.inr (Or.inl ⟨c, hc, hreach⟩)
      . exact Or.inr (Or.inr ⟨w, hw, hreach⟩)

theorem mem_of_mem_roots (h : Listing next d vs out) {v : V} (hv : v ∈ vs) : (d, v) ∈ out := by
  induction h with
  | nil => simp at hv
  | cons hbelow hafter ihbelow ihafter =>
    rcases List.mem_cons.mp hv with rfl | hv
    . exact List.mem_cons_self
    . exact List.mem_cons_of_mem _ (List.mem_append_right _ (ihafter hv))

theorem sublist_roots (h : Listing next d vs out) : List.Sublist vs (out.map Prod.snd) := by
  induction h with
  | nil => exact .slnil
  | cons hbelow hafter ihbelow ihafter =>
    rw [List.map_cons, List.map_append]
    exact (ihafter.trans (List.sublist_append_right _ _)).cons_cons _

theorem of_mem (h : Listing next d vs out) {x : Nat × V} (hx : x ∈ out)
    : ∃ before below after, out = before ++ x :: (below ++ after)
        ∧ Listing next (x.1 + 1) (next x.2) below := by
  induction h with
  | nil => simp at hx
  | @cons d v vs below after hbelow hafter ihbelow ihafter =>
    rw [List.mem_cons, List.mem_append] at hx
    rcases hx with rfl | hx | hx
    . exact ⟨[], below, after, rfl, hbelow⟩
    . obtain ⟨before', below', after', rfl, hlisting⟩ := ihbelow hx
      exact ⟨(d, v) :: before', below', after' ++ after, by simp, hlisting⟩
    . obtain ⟨before', below', after', rfl, hlisting⟩ := ihafter hx
      exact ⟨(d, v) :: (below ++ before'), below', after', by simp, hlisting⟩

theorem sublist_next (h : Listing next d vs out) {x : Nat × V} (hx : x ∈ out)
    : List.Sublist (next x.2) (out.map Prod.snd) := by
  obtain ⟨before, below, after, rfl, hbelow⟩ := h.of_mem hx
  refine hbelow.sublist_roots.trans (List.Sublist.map _ ?_)
  exact (List.sublist_append_left below after).trans
    ((List.sublist_cons_self x _).trans (List.sublist_append_right _ _))

theorem exists_deeper (h : Listing next d vs out) {x : Nat × V} (hx : x ∈ out) {u : V}
    (hu : TransGen (Step next) x.2 u)
    : ∃ y ∈ out, y.2 = u ∧ x.1 < y.1 := by
  obtain ⟨before, below, after, rfl, hbelow⟩ := h.of_mem hx
  obtain ⟨w, hw, hreach⟩ := TransGen.head'_iff.mp hu
  obtain ⟨y, hy, heq⟩ := List.mem_map.mp (hbelow.mem_iff.mpr ⟨w, hw, hreach⟩)
  exact ⟨y, by simp [hy], heq, hbelow.le_depth hy⟩

theorem under (h : Listing next d vs out) {x : Nat × V} (hx : x ∈ out) {w : V} (hw : w ∈ next x.2)
    : ∃ before between after, out = before ++ x :: between ++ (x.1 + 1, w) :: after
        ∧ ∀ y ∈ between, x.1 < y.1 := by
  obtain ⟨before, below, after, rfl, hbelow⟩ := h.of_mem hx
  have hdepth : ∀ y ∈ below, x.1 < y.1 := fun y hy => hbelow.le_depth hy
  obtain ⟨between, rest, rfl⟩ := List.append_of_mem (hbelow.mem_of_mem_roots hw)
  exact ⟨before, between, rest ++ after, by simp, fun y hy => hdepth y (List.mem_append_left _ hy)⟩

end Listing

/-! ## Forests -/

namespace ForestOn

variable {S : V → Prop}

theorem closed_reach (h : ForestOn next S) {v w : V} (hv : S v)
    (hreach : ReflTransGen (Step next) v w) : S w := by
  induction hreach with
  | refl => exact hv
  | tail _ hstep ih => exact h.closed _ _ ih hstep

theorem reaches_total (h : ForestOn next S) {u v w : V} (hu : S u) (hv : S v)
    (huw : ReflTransGen (Step next) u w) (hvw : ReflTransGen (Step next) v w)
    : ReflTransGen (Step next) u v ∨ ReflTransGen (Step next) v u := by
  induction huw with
  | refl => exact Or.inr hvw
  | @tail b c hub hbc ih =>
    rcases hvw.cases_tail with rfl | ⟨b', hvb, hbc'⟩
    . exact Or.inl (hub.tail hbc)
    . have heq := h.parent b b' c (h.closed_reach hu hub) (h.closed_reach hv hvb) hbc hbc'
      exact ih (heq ▸ hvb)

theorem apart_next (h : ForestOn next S) {v : V} (hv : S v) : Apart next (next v) where
  nodup := h.nodup v hv
  notBelow := by
    intro u hu w hw huw
    obtain ⟨b, hub, hbw⟩ := TransGen.tail'_iff.mp huw
    have heq := h.parent b v w (h.closed_reach (h.closed v u hv hu) hub) hv hbw hw
    subst heq
    exact h.acyclic b hv (.head' hu hub)

theorem nodup_listing (h : ForestOn next S) {d : Nat} {vs : List V} {out : List (Nat × V)}
    (hlisting : Listing next d vs out) (hvs : ∀ v ∈ vs, S v) (hapart : Apart next vs)
    : (out.map Prod.snd).Nodup := by
  induction hlisting with
  | nil => simp
  | @cons d v vs below after hbelow hafter ihbelow ihafter =>
    have hv := hvs v List.mem_cons_self
    have ⟨hvnot, hnodup⟩ := List.nodup_cons.mp hapart.nodup
    have hnodupbelow := ihbelow (fun w hw => h.closed v w hv hw) (h.apart_next hv)
    have hnodupafter := ihafter (fun w hw => hvs w (List.mem_cons_of_mem _ hw))
      ⟨hnodup, fun u hu w hw =>
        hapart.notBelow u (List.mem_cons_of_mem _ hu) w (List.mem_cons_of_mem _ hw)⟩
    -- the trees of the siblings have nothing in common with the tree of `v`
    have hdisjoint : ∀ u, ReflTransGen (Step next) v u → u ∉ after.map Prod.snd := by
      intro u hvu hu
      obtain ⟨w, hw, hwu⟩ := hafter.mem_iff.mp hu
      have hmem := List.mem_cons_of_mem v hw
      rcases h.reaches_total hv (hvs w hmem) hvu hwu with hvw | hwv
      . rcases reflTransGen_iff_eq_or_transGen.mp hvw with rfl | hvw
        . exact hvnot hw
        . exact hapart.notBelow v List.mem_cons_self w hmem hvw
      . rcases reflTransGen_iff_eq_or_transGen.mp hwv with rfl | hwv
        . exact hvnot hw
        . exact hapart.notBelow w hmem v List.mem_cons_self hwv
    rw [List.map_cons, List.map_append, List.nodup_cons, List.mem_append, List.nodup_append']
    refine ⟨?_, hnodupbelow, hnodupafter, ?_⟩
    . rintro (hmem | hmem)
      . obtain ⟨w, hw, hwv⟩ := hbelow.mem_iff.mp hmem
        exact h.acyclic v hv (.head' hw hwv)
      . exact hdisjoint v .refl hmem
    . intro u hu hu'
      obtain ⟨w, hw, hwu⟩ := hbelow.mem_iff.mp hu
      exact hdisjoint u (.head hw hwu) hu'

theorem depth_lt (h : ForestOn next S) {d : Nat} {vs : List V} {out : List (Nat × V)}
    (hlisting : Listing next d vs out) (hvs : ∀ v ∈ vs, S v) (hapart : Apart next vs)
    {x y : Nat × V} (hx : x ∈ out) (hy : y ∈ out) (hxy : TransGen (Step next) x.2 y.2)
    : x.1 < y.1 := by
  obtain ⟨z, hz, heq, hlt⟩ := hlisting.exists_deeper hx hxy
  have hsame := List.inj_on_of_nodup_map (h.nodup_listing hlisting hvs hapart) hz hy heq
  exact hsame ▸ hlt

theorem between {thinned : V → List V} (h : ForestOn next S) (hthinned : ∀ v, thinned v ⊆ next v)
    {m x y : V} (hm : S m) (hmx : TransGen (Step next) m x) (hxy : TransGen (Step next) x y)
    (hmy : TransGen (Step thinned) m y)
    : TransGen (Step thinned) m x ∧ TransGen (Step thinned) x y := by
  have hreach : ∀ {v w}, TransGen (Step thinned) v w → ReflTransGen (Step next) v w :=
    fun hvw => (TransGen.mono (fun v w hw => hthinned v hw) _ _ hvw).to_reflTransGen
  have hx := h.closed_reach hm hmx.to_reflTransGen
  induction hmy with
  | @single y hy =>
    -- the last step to `y` starts in `m`, so that `x` is above `m` as well as below
    obtain ⟨b, hxb, hby⟩ := TransGen.tail'_iff.mp hxy
    obtain rfl := h.parent b m y (h.closed_reach hx hxb) hm hby (hthinned m hy)
    exact absurd (hmx.trans_left hxb) (h.acyclic b hm)
  | @tail a y hma hay ih =>
    obtain ⟨b, hxb, hby⟩ := TransGen.tail'_iff.mp hxy
    obtain rfl :=
      h.parent b a y (h.closed_reach hx hxb) (h.closed_reach hm (hreach hma)) hby (hthinned a hay)
    rcases reflTransGen_iff_eq_or_transGen.mp hxb with rfl | hxb
    . exact ⟨hma, .single hay⟩
    . have ⟨hmx', hxb'⟩ := ih hxb
      exact ⟨hmx', hxb'.tail hay⟩

end ForestOn

/-! ## What grows from some roots -/

section Roots

variable {roots : List V} (hnodup : ∀ v, (next v).Nodup)
  (hparent : ∀ u v w, w ∈ next u → w ∈ next v → u = v) (hroots : ∀ r ∈ roots, ∀ v, r ∉ next v)

include hnodup hparent hroots in
theorem forestOn_of_roots : ForestOn next fun v => ∃ r ∈ roots, ReflTransGen (Step next) r v where
  closed := by
    rintro v w ⟨r, hr, hreach⟩ hstep
    exact ⟨r, hr, hreach.tail hstep⟩
  nodup := fun v _ => hnodup v
  parent := fun u v w _ _ => hparent u v w
  acyclic := by
    rintro v ⟨r, hr, hreach⟩
    induction hreach with
    | refl =>
      intro hcycle
      obtain ⟨u, _, hstep⟩ := TransGen.tail'_iff.mp hcycle
      exact hroots r hr u hstep
    | @tail u v _ hstep ih =>
      -- a cycle enters `v` from `u`, so that `u` is on it
      intro hcycle
      obtain ⟨b, hvb, hbv⟩ := TransGen.tail'_iff.mp hcycle
      obtain rfl := hparent b u v hbv hstep
      exact ih (.head' hstep hvb)

include hnodup hparent hroots in
theorem apart_of_roots (hrootsNodup : roots.Nodup) : Apart next (roots.flatMap next) where
  nodup := by
    rw [List.nodup_flatMap]
    refine ⟨fun r _ => hnodup r, hrootsNodup.imp ?_⟩
    intro r r' hne w hw hw'
    exact hne (hparent r r' w hw hw')
  notBelow := by
    intro u hu w hw huw
    obtain ⟨r, hr, hru⟩ := List.mem_flatMap.mp hu
    obtain ⟨r', hr', hrw⟩ := List.mem_flatMap.mp hw
    obtain ⟨b, hub, hbw⟩ := TransGen.tail'_iff.mp huw
    obtain rfl := hparent b r' w hbw hrw
    rcases hub.cases_tail with rfl | ⟨c, _, hcb⟩
    . exact hroots _ hr' r hru
    . exact hroots _ hr' c hcb

end Roots

theorem exists_mem_flatMap_iff {roots : List V} {w : V}
    : (∃ v ∈ roots.flatMap next, ReflTransGen (Step next) v w)
        ↔ ∃ r ∈ roots, TransGen (Step next) r w := by
  constructor
  . rintro ⟨v, hv, hreach⟩
    obtain ⟨r, hr, hstep⟩ := List.mem_flatMap.mp hv
    exact ⟨r, hr, .head' hstep hreach⟩
  . rintro ⟨r, hr, hreach⟩
    obtain ⟨v, hstep, hreach⟩ := TransGen.head'_iff.mp hreach
    exact ⟨v, List.mem_flatMap.mpr ⟨r, hr, hstep⟩, hreach⟩

/-! ## Walks -/

section Walks

open Walk

variable {steps : Nat → V → List (Walk.Step V β)}
  (hnext : ∀ d v, (steps d v).filterMap Walk.Step.next = next v)

include hnext in
theorem acc_of_run {fuel d : Nat} {v : V} (h : (run steps fuel d v).isSome)
    : Acc (flip (Step next)) v := by
  induction fuel generalizing d v with
  | zero => simp [run] at h
  | succ fuel ih =>
    rw [run] at h
    constructor
    intro w hw
    have hw : w ∈ next v := hw
    rw [← hnext d v] at hw
    obtain ⟨step, hstep, hnext⟩ := List.mem_filterMap.mp hw
    exact ih (isSome_of_collect h step hstep w hnext)

include hnext in
theorem terminates_of_acc {v : V} (h : Acc (flip (Step next)) v) (d : Nat)
    : Terminates steps d v := by
  induction h generalizing d with
  | intro v _ ih =>
    have hcalls : ∀ step ∈ steps d v, ∀ w, step.next = some w → Terminates steps (d + 1) w := by
      intro step hstep w hw
      have hmem : w ∈ next v := hnext d v ▸ List.mem_filterMap.mpr ⟨step, hstep, hw⟩
      exact ih w hmem (d + 1)
    obtain ⟨out, bound, hout⟩ := collect_of_terminates hcalls
    refine ⟨out, bound + 1, ?_⟩
    intro fuel hfuel
    obtain ⟨more, rfl⟩ : ∃ more, fuel = more + 1 := ⟨fuel - 1, by omega⟩
    exact hout more (by omega)

include hnext in
/-- A walk ends exactly if no path from its start goes on forever. -/
theorem terminates_iff_acc {d : Nat} {v : V} : Terminates steps d v ↔ Acc (flip (Step next)) v := by
  constructor
  . rintro ⟨out, bound, hout⟩
    exact acc_of_run hnext
      (Option.isSome_iff_exists.mpr ⟨out, hout (bound + 1) (Nat.lt_succ_self _)⟩)
  . intro h
    exact terminates_of_acc hnext h d

theorem finite_reach (vs : List V) (h : ∀ u, next u ⊆ vs) (v : V)
    : {w | ReflTransGen (Step next) v w}.Finite := by
  refine (List.finite_toSet (v :: vs)).subset ?_
  intro w hw
  rcases hw.cases_tail with rfl | ⟨u, _, hstep⟩
  . exact List.mem_cons_self
  . exact List.mem_cons_of_mem _ (h u hstep)

theorem acc_iff_acyclic {v : V} (hfinite : {w | ReflTransGen (Step next) v w}.Finite)
    : Acc (flip (Step next)) v ↔ ∀ w, ReflTransGen (Step next) v w → ¬TransGen (Step next) w w := by
  constructor
  . intro hacc w hreach hcycle
    have haccw : Acc (flip (Step next)) w := by
      clear hcycle
      induction hreach with
      | refl => exact hacc
      | tail _ hstep ih => exact ih.inv hstep
    have htrans : Acc (TransGen (flip (Step next))) w := haccw.transGen
    have hcycle' : TransGen (flip (Step next)) w w := transGen_swap.mpr hcycle
    clear haccw hcycle hreach
    induction htrans with
    | intro w _ ih => exact ih w hcycle' hcycle'
  . intro hacyclic
    have : Finite {w // ReflTransGen (Step next) v w} := hfinite
    let below (x y : {w // ReflTransGen (Step next) v w}) : Prop := TransGen (Step next) y.1 x.1
    have : IsTrans _ below := ⟨fun _ _ _ hxy hyz => hyz.trans hxy⟩
    have : Std.Irrefl below := ⟨fun x => hacyclic x.1 x.2⟩
    have hwf : WellFounded below := Finite.wellFounded_of_trans_of_irrefl below
    have hall : ∀ x : {w // ReflTransGen (Step next) v w}, Acc (flip (Step next)) x.1 := by
      intro x
      induction x using hwf.induction with
      | _ x ih => exact ⟨_, fun w hw => ih ⟨w, x.2.tail hw⟩ (.single hw)⟩
    exact hall ⟨v, .refl⟩

/-! ## What a walk writes -/

theorem listing_of_collect {fuel d : Nat} {vs : List V} {out : List (Nat × V)}
    (h : collect (run (fun d v => (next v).map fun w => ⟨[(d, w)], some w⟩) fuel (d + 1))
      (vs.map fun w => ⟨[(d, w)], some w⟩) = some out)
    : Listing next d vs out := by
  induction fuel generalizing d vs out with
  | zero =>
    cases vs with
    | nil =>
      rw [List.map_nil, collect, Option.some.injEq] at h
      exact h ▸ .nil d
    | cons w vs => simp [collect, run] at h
  | succ fuel ih =>
    induction vs generalizing out with
    | nil =>
      rw [List.map_nil, collect, Option.some.injEq] at h
      exact h ▸ .nil d
    | cons w vs ihvs =>
      simp only [List.map_cons, collect] at h
      split at h
      . next below after hbelow hafter =>
        rw [Option.some.injEq] at h
        exact h ▸ .cons (ih hbelow) (ihvs hafter)
      . simp at h

theorem listing_of_run {fuel d : Nat} {v : V} {out : List (Nat × V)}
    (h : run (fun d v => (next v).map fun w => ⟨[(d, w)], some w⟩) fuel d v = some out)
    : Listing next d (next v) out := by
  cases fuel with
  | zero => simp [run] at h
  | succ fuel => exact listing_of_collect h

include hnext in
/-- What a walk writes is what the visits of the listed vertices write, in another order. -/
theorem perm_of_collect {fuel d : Nat} {visit : List (Walk.Step V β)} {out : List β}
    (h : collect (run steps fuel d) visit = some out)
    : ∃ listing, Listing next d (visit.filterMap Walk.Step.next) listing
        ∧ out ~ visit.flatMap Walk.Step.output
          ++ listing.flatMap fun x => (steps x.1 x.2).flatMap Walk.Step.output := by
  induction fuel generalizing d visit out with
  | zero =>
    have hnone : ∀ step ∈ visit, step.next = none := by
      intro step hstep
      rw [Option.eq_none_iff_forall_ne_some]
      intro w hw
      have hsome := isSome_of_collect (Option.isSome_iff_exists.mpr ⟨out, h⟩) step hstep w hw
      simp [run] at hsome
    have hnil : visit.filterMap Walk.Step.next = [] := List.filterMap_eq_nil_iff.mpr hnone
    refine ⟨[], hnil ▸ .nil d, ?_⟩
    rw [List.flatMap_nil, List.append_nil]
    clear hnil
    induction visit generalizing out with
    | nil =>
      rw [collect, Option.some.injEq] at h
      exact h ▸ .refl _
    | cons step rest ih =>
      rw [collect, hnone step List.mem_cons_self] at h
      obtain ⟨after, hafter, rfl⟩ := Option.map_eq_some_iff.mp h
      exact (ih hafter fun step hstep => hnone step (List.mem_cons_of_mem _ hstep)).append_left _
  | succ fuel ih =>
    induction visit generalizing out with
    | nil =>
      rw [collect, Option.some.injEq] at h
      exact ⟨[], .nil d, h ▸ .refl _⟩
    | cons step rest ihrest =>
      rw [collect] at h
      split at h
      . next hstep =>
        obtain ⟨after, hafter, rfl⟩ := Option.map_eq_some_iff.mp h
        obtain ⟨listing, hlisting, hperm⟩ := ihrest hafter
        rw [List.filterMap_cons_none hstep]
        refine ⟨listing, hlisting, ?_⟩
        rw [List.flatMap_cons, List.append_assoc]
        exact hperm.append_left _
      . next w hstep =>
        split at h
        . next belowOut after hcall hafter =>
          obtain ⟨below, hbelow, hpermBelow⟩ := ih hcall
          obtain ⟨listing, hlisting, hperm⟩ := ihrest hafter
          rw [List.filterMap_cons_some hstep]
          obtain ⟨rfl⟩ := h
          refine ⟨_, .cons (hnext d w ▸ hbelow) hlisting, ?_⟩
          rw [List.flatMap_cons, List.flatMap_cons, List.flatMap_append, List.append_assoc,
            List.append_assoc]
          refine List.Perm.append_left _ ((hpermBelow.append hperm).trans ?_)
          rw [← List.append_assoc (List.flatMap _ (steps d w))]
          exact List.perm_append_comm_assoc _ _ _
        . simp at h

end Walks
end Forest
