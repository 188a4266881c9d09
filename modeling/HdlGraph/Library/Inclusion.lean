import HdlGraph.Library.Conditional

/-!
This module contains lines that stand for whole blocks. Each of them can be replaced by its block,
which gives one block without such lines, and two evaluations go together if they do so line by
line.
-/

namespace Conditional

universe u v w

variable {L : Type u} {S : Type v} {S' : Type w}

def Block.append : Block L → Block L → Block L
  | .nil, b' => b'
  | .line l rest, b' => .line l (rest.append b')
  | .group opener body tail rest, b' => .group opener body tail (rest.append b')

mutual

def Block.inlined (unit : L → Option (Block L)) : Block L → Block L
  | .nil => .nil
  | .line l rest =>
    match unit l with
    | some b => b.append (rest.inlined unit)
    | none => .line l (rest.inlined unit)
  | .group opener body tail rest =>
    .group opener (body.inlined unit) (tail.inlined unit) (rest.inlined unit)

def Tail.inlined (unit : L → Option (Block L)) : Tail L → Tail L
  | .endif l => .endif l
  | .elsif l body tail => .elsif l (body.inlined unit) (tail.inlined unit)
  | .otherwise l body closer => .otherwise l (body.inlined unit) closer

end

/-! ## Spelling -/

mutual

theorem Block.spelled_congr {d : Dialect L S} {d' : Dialect L S'} (hkind : d.kind = d'.kind)
    : ∀ {b : Block L}, b.Spelled d → b.Spelled d'
  | .nil, _ => trivial
  | .line _ _, h => ⟨hkind ▸ h.1, Block.spelled_congr hkind h.2⟩
  | .group _ _ _ _, h =>
    ⟨hkind ▸ h.1, Block.spelled_congr hkind h.2.1, Tail.spelled_congr hkind h.2.2.1,
      Block.spelled_congr hkind h.2.2.2⟩

theorem Tail.spelled_congr {d : Dialect L S} {d' : Dialect L S'} (hkind : d.kind = d'.kind)
    : ∀ {t : Tail L}, t.Spelled d → t.Spelled d'
  | .endif _, h => Eq.trans (congrFun hkind.symm _) h
  | .elsif _ _ _, h =>
    ⟨hkind ▸ h.1, Block.spelled_congr hkind h.2.1, Tail.spelled_congr hkind h.2.2⟩
  | .otherwise _ _ _, h => ⟨hkind ▸ h.1, Block.spelled_congr hkind h.2.1, hkind ▸ h.2.2⟩

end

/-! ## Blocks one after the other -/

theorem Block.lines_append : ∀ (b b' : Block L), (b.append b').lines = b.lines ++ b'.lines
  | .nil, _ => rfl
  | .line l rest, b' =>
    by rw [Block.append, Block.lines, Block.lines, Block.lines_append rest b', List.cons_append]
  | .group opener body tail rest, b' => by
    rw [Block.append, Block.lines, Block.lines, Block.lines_append rest b']
    simp

theorem Block.spelled_append {d : Dialect L S}
    : ∀ {b b' : Block L}, b.Spelled d → b'.Spelled d → (b.append b').Spelled d
  | .nil, _, _, hb' => hb'
  | .line _ _, _, hb, hb' => ⟨hb.1, Block.spelled_append hb.2 hb'⟩
  | .group _ _ _ _, _, hb, hb' => ⟨hb.1, hb.2.1, hb.2.2.1, Block.spelled_append hb.2.2.2 hb'⟩

theorem Block.after_append (d : Dialect L S) (active : Bool)
    : ∀ (b b' : Block L) (s : S),
        (b.append b').after d active s = b'.after d active (b.after d active s)
  | .nil, _, _ => rfl
  | .line _ rest, b', _ => Block.after_append d active rest b' _
  | .group _ _ _ rest, b', _ => Block.after_append d active rest b' _

mutual

@[simp]
theorem Block.inlined_none : ∀ (b : Block L), b.inlined (fun _ => none) = b
  | .nil => rfl
  | .line l rest => by rw [Block.inlined, Block.inlined_none rest]
  | .group opener body tail rest => by
    rw [Block.inlined, Block.inlined_none body, Tail.inlined_none tail, Block.inlined_none rest]

@[simp]
theorem Tail.inlined_none : ∀ (t : Tail L), t.inlined (fun _ => none) = t
  | .endif _ => rfl
  | .elsif l body tail => by rw [Tail.inlined, Block.inlined_none body, Tail.inlined_none tail]
  | .otherwise l body closer => by rw [Tail.inlined, Block.inlined_none body]

end

/-! ## The lines with the blocks in place -/

section Inlined

variable {unit : L → Option (Block L)}

def inlinedLines (unit : L → Option (Block L)) (l : L) : List L := (unit l).elim [l] Block.lines

def PlainUnits (d : Dialect L S) (unit : L → Option (Block L)) : Prop :=
  ∀ l, d.kind l ≠ .plain → unit l = none

section Spelled

variable {d : Dialect L S} (hplain : PlainUnits d unit)

include hplain

theorem PlainUnits.inlinedLines_eq {l : L} {kind : Kind} (h : d.kind l = kind)
    (hkind : kind ≠ .plain)
    : inlinedLines unit l = [l] := by
  rw [inlinedLines, hplain l (h ▸ hkind), Option.elim_none]

mutual

theorem Block.lines_inlined
    : ∀ (b : Block L), b.Spelled d → (b.inlined unit).lines = b.lines.flatMap (inlinedLines unit)
  | .nil, _ => rfl
  | .line l rest, h => by
    rw [Block.inlined, Block.lines, List.flatMap_cons, ← Block.lines_inlined rest h.2, inlinedLines]
    cases unit l with
    | none => rfl
    | some b => exact Block.lines_append b _
  | .group opener body tail rest, h => by
    have ⟨hopener, hbody, htail, hrest⟩ := h
    simp only [Block.inlined, Block.lines, List.flatMap_cons, List.flatMap_append]
    rw [hplain.inlinedLines_eq hopener Kind.noConfusion, Block.lines_inlined body hbody,
      Tail.lines_inlined tail htail, Block.lines_inlined rest hrest]
    rfl

theorem Tail.lines_inlined
    : ∀ (t : Tail L), t.Spelled d → (t.inlined unit).lines = t.lines.flatMap (inlinedLines unit)
  | .endif l, h => by
    simp only [Tail.inlined, Tail.lines, List.flatMap_cons, List.flatMap_nil, List.append_nil]
    rw [hplain.inlinedLines_eq h Kind.noConfusion]
  | .elsif l body tail, h => by
    have ⟨hl, hbody, htail⟩ := h
    simp only [Tail.inlined, Tail.lines, List.flatMap_cons, List.flatMap_append]
    rw [hplain.inlinedLines_eq hl Kind.noConfusion, Block.lines_inlined body hbody,
      Tail.lines_inlined tail htail]
    rfl
  | .otherwise l body closer, h => by
    have ⟨hl, hbody, hcloser⟩ := h
    simp only [Tail.inlined, Tail.lines, List.flatMap_cons, List.flatMap_append, List.flatMap_nil,
      List.append_nil]
    rw [hplain.inlinedLines_eq hl Kind.noConfusion, hplain.inlinedLines_eq hcloser Kind.noConfusion,
      Block.lines_inlined body hbody]
    rfl

end

end Spelled

mutual

theorem Block.spelled_inlined {d : Dialect L S} (hunits : ∀ l b, unit l = some b → b.Spelled d)
    : ∀ {b : Block L}, b.Spelled d → (b.inlined unit).Spelled d
  | .nil, _ => trivial
  | .line l rest, h => by
    have hrest : (rest.inlined unit).Spelled d := Block.spelled_inlined hunits h.2
    rw [Block.inlined]
    cases hunit : unit l with
    | none => exact ⟨h.1, hrest⟩
    | some b => exact Block.spelled_append (hunits l b hunit) hrest
  | .group _ _ _ _, h =>
    ⟨h.1, Block.spelled_inlined hunits h.2.1, Tail.spelled_inlined hunits h.2.2.1,
      Block.spelled_inlined hunits h.2.2.2⟩

theorem Tail.spelled_inlined {d : Dialect L S} (hunits : ∀ l b, unit l = some b → b.Spelled d)
    : ∀ {t : Tail L}, t.Spelled d → (t.inlined unit).Spelled d
  | .endif _, h => h
  | .elsif _ _ _, h => ⟨h.1, Block.spelled_inlined hunits h.2.1, Tail.spelled_inlined hunits h.2.2⟩
  | .otherwise _ _ _, h => ⟨h.1, Block.spelled_inlined hunits h.2.1, h.2.2⟩

end

/-! ## Evaluations that go together -/

/--
Related states answer each condition alike, and a line leads to states that are related again, where
the one evaluation takes the line and the other one the block in its place. The lines are those of a
source.
-/
structure GoesWith (d : Dialect L S) (d' : Dialect L S') (unit : L → Option (Block L)) (ls : List L)
    (related : S → S' → Prop) : Prop where
  holds : ∀ l ∈ ls, ∀ s s', related s s' → d.holds s l = d'.holds s' l
  keep : ∀ l ∈ ls, ∀ s s', related s s' →
    related (d.keep s l) ((unit l).elim (d'.keep s' l) fun b => b.after d' true s')

section GoesWith

variable {d : Dialect L S} {d' : Dialect L S'} {related : S → S' → Prop}

theorem GoesWith.mono {ls ls' : List L} (h : GoesWith d d' unit ls related) (hsub : ls' ⊆ ls)
    : GoesWith d d' unit ls' related where
  holds l hl := h.holds l (hsub hl)
  keep l hl := h.keep l (hsub hl)

mutual

theorem GoesWith.block
    : ∀ {b : Block L}, GoesWith d d' unit b.lines related →
        ∀ (active : Bool) {s : S} {s' : S'}, related s s' →
        related (b.after d active s) ((b.inlined unit).after d' active s')
  | .nil, _, _, _, _, hs => hs
  | .line l rest, h, active, s, s', hs => by
    have hrest : ∀ {s s'}, related s s' →
        related (rest.after d active s) ((rest.inlined unit).after d' active s') :=
      GoesWith.block (h.mono (List.subset_cons_self _ _)) active
    have hkeep := h.keep l List.mem_cons_self s s' hs
    rw [Block.after, Block.inlined]
    cases active with
    | false =>
      cases unit l with
      | none => exact hrest hs
      | some b =>
        rw [Block.after_append, Block.after_false d' b]
        exact hrest hs
    | true =>
      cases hunit : unit l with
      | none =>
        rw [hunit] at hkeep
        exact hrest hkeep
      | some b =>
        rw [hunit] at hkeep
        rw [Block.after_append]
        exact hrest hkeep
  | .group opener body tail rest, h, active, s, s', hs => by
    have hsub : (∀ l ∈ body.lines, l ∈ (Block.group opener body tail rest).lines)
        ∧ (∀ l ∈ tail.lines, l ∈ (Block.group opener body tail rest).lines)
        ∧ ∀ l ∈ rest.lines, l ∈ (Block.group opener body tail rest).lines := by
      simp only [Block.lines, List.mem_cons, List.mem_append]
      grind
    have hopener : d.holds s opener = d'.holds s' opener :=
      h.holds opener List.mem_cons_self s s' hs
    have hbody := GoesWith.block (b := body) (h.mono hsub.1) (active && d'.holds s' opener) hs
    have htail := GoesWith.tail (t := tail) (h.mono hsub.2.1) active (d'.holds s' opener) hbody
    rw [Block.after, Block.inlined, Block.after, hopener]
    exact GoesWith.block (b := rest) (h.mono hsub.2.2) active htail

theorem GoesWith.tail
    : ∀ {t : Tail L}, GoesWith d d' unit t.lines related →
        ∀ (active taken : Bool) {s : S} {s' : S'}, related s s' →
        related (t.after d active taken s) ((t.inlined unit).after d' active taken s')
  | .endif _, _, _, _, _, _, hs => hs
  | .elsif l body tail, h, active, taken, s, s', hs => by
    have hsub : (∀ l' ∈ body.lines, l' ∈ (Tail.elsif l body tail).lines)
        ∧ ∀ l' ∈ tail.lines, l' ∈ (Tail.elsif l body tail).lines := by
      simp only [Tail.lines, List.mem_cons, List.mem_append]
      grind
    have hl : d.holds s l = d'.holds s' l := h.holds l List.mem_cons_self s s' hs
    have hbody :=
      GoesWith.block (b := body) (h.mono hsub.1) (active && (!taken && d'.holds s' l)) hs
    rw [Tail.after, Tail.inlined, Tail.after, hl]
    exact GoesWith.tail (t := tail) (h.mono hsub.2) active _ hbody
  | .otherwise l body closer, h, active, taken, s, s', hs => by
    have hsub : ∀ l' ∈ body.lines, l' ∈ (Tail.otherwise l body closer).lines := by
      simp only [Tail.lines, List.mem_cons, List.mem_append]
      grind
    exact GoesWith.block (b := body) (h.mono hsub) (active && !taken) hs

end

end GoesWith

end Inlined

end Conditional
