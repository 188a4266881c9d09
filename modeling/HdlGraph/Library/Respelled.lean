import HdlGraph.Library.Conditional

/-!
This module contains blocks whose lines are written in another way. Two dialects that answer the
conditions alike keep the same lines of them.
-/

namespace Conditional

universe u v w

variable {L : Type u} {M : Type u} {S : Type v} {S' : Type w}

mutual

def Block.map (f : L → M) : Block L → Block M
  | .nil => .nil
  | .line l rest => .line (f l) (rest.map f)
  | .group opener body tail rest => .group (f opener) (body.map f) (tail.map f) (rest.map f)

def Tail.map (f : L → M) : Tail L → Tail M
  | .endif l => .endif (f l)
  | .elsif l body tail => .elsif (f l) (body.map f) (tail.map f)
  | .otherwise l body closer => .otherwise (f l) (body.map f) (f closer)

end

mutual

theorem Block.lines_map (f : L → M) : ∀ b : Block L, (b.map f).lines = b.lines.map f
  | .nil => rfl
  | .line l rest =>
    by rw [Block.map, Block.lines, Block.lines, List.map_cons, Block.lines_map f rest]
  | .group opener body tail rest => by
    simp only [Block.map, Block.lines, List.map_cons, List.map_append]
    rw [Block.lines_map f body, Tail.lines_map f tail, Block.lines_map f rest]

theorem Tail.lines_map (f : L → M) : ∀ t : Tail L, (t.map f).lines = t.lines.map f
  | .endif _ => rfl
  | .elsif l body tail => by
    simp only [Tail.map, Tail.lines, List.map_cons, List.map_append]
    rw [Block.lines_map f body, Tail.lines_map f tail]
  | .otherwise l body closer => by
    simp only [Tail.map, Tail.lines, List.map_cons, List.map_append, List.map_nil]
    rw [Block.lines_map f body]

end

section Writes

/--
The dialect `d'` reads what `f` writes as `d` reads the lines themselves, as far as the conditions
go.
-/
structure Writes (d : Dialect L S) (d' : Dialect M S') (f : L → M) (related : S → S' → Prop)
    : Prop where
  kind : ∀ l, d'.kind (f l) = d.kind l
  holds : ∀ l s s', d.kind l = .opens ∨ d.kind l = .elsif → related s s' →
    d'.holds s' (f l) = d.holds s l
  keep : ∀ l s s', d.kind l = .plain → related s s' → related (d.keep s l) (d'.keep s' (f l))

namespace Writes

variable {d : Dialect L S} {d' : Dialect M S'} {f : L → M} {related : S → S' → Prop}
  (h : Writes d d' f related)

include h

mutual

theorem spelled : ∀ {b : Block L}, b.Spelled d → (b.map f).Spelled d'
  | .nil, _ => trivial
  | .line l _, hb => ⟨(h.kind l).trans hb.1, spelled hb.2⟩
  | .group opener _ _ _, hb =>
    ⟨(h.kind opener).trans hb.1, spelled hb.2.1, spelled_tail hb.2.2.1, spelled hb.2.2.2⟩

theorem spelled_tail : ∀ {t : Tail L}, t.Spelled d → (t.map f).Spelled d'
  | .endif l, ht => (h.kind l).trans ht
  | .elsif l _ _, ht => ⟨(h.kind l).trans ht.1, spelled ht.2.1, spelled_tail ht.2.2⟩
  | .otherwise l _ closer, ht =>
    ⟨(h.kind l).trans ht.1, spelled ht.2.1, (h.kind closer).trans ht.2.2⟩

end

theorem holds_eq {l : L} {kind : Kind} (hl : d.kind l = kind)
    (hkind : kind = .opens ∨ kind = .elsif) {s : S} {s' : S'} (hs : related s s')
    : d'.holds s' (f l) = d.holds s l :=
  h.holds l s s' (hl ▸ hkind) hs

mutual

theorem after : ∀ {b : Block L}, b.Spelled d → ∀ (active : Bool) {s : S} {s' : S'}, related s s' →
    related (b.after d active s) ((b.map f).after d' active s')
  | .nil, _, _, _, _, hs => hs
  | .line l rest, hb, active, s, s', hs => by
    rw [Block.after, Block.map, Block.after]
    cases active with
    | false => exact after hb.2 false hs
    | true => exact after hb.2 true (h.keep l s s' hb.1 hs)
  | .group opener body tail rest, hb, active, s, s', hs => by
    have hbody := after hb.2.1 (active && d.holds s opener) hs
    rw [Block.after, Block.map, Block.after, h.holds_eq hb.1 (.inl rfl) hs]
    exact after hb.2.2.2 active (after_tail hb.2.2.1 active (d.holds s opener) hbody)

theorem after_tail
    : ∀ {t : Tail L}, t.Spelled d → ∀ (active taken : Bool) {s : S} {s' : S'}, related s s' →
    related (t.after d active taken s) ((t.map f).after d' active taken s')
  | .endif _, _, _, _, _, _, hs => hs
  | .elsif l body tail, ht, active, taken, s, s', hs => by
    have hbody := after ht.2.1 (active && (!taken && d.holds s l)) hs
    rw [Tail.after, Tail.map, Tail.after, h.holds_eq ht.1 (.inr rfl) hs]
    exact after_tail ht.2.2 active _ hbody
  | .otherwise _ body _, ht, active, taken, s, s', hs => after ht.2.1 (active && !taken) hs

end

mutual

theorem kept : ∀ {b : Block L}, b.Spelled d → ∀ (active : Bool) {s : S} {s' : S'}, related s s' →
    (b.map f).kept d' active s' = b.kept d active s
  | .nil, _, _, _, _, _ => rfl
  | .line l rest, hb, active, s, s', hs => by
    rw [Block.kept, Block.map, Block.kept]
    cases active with
    | false => exact congrArg (false :: ·) (kept hb.2 false hs)
    | true => exact congrArg (true :: ·) (kept hb.2 true (h.keep l s s' hb.1 hs))
  | .group opener body tail rest, hb, active, s, s', hs => by
    have hbody := h.after hb.2.1 (active && d.holds s opener) hs
    have htail := h.after_tail hb.2.2.1 active (d.holds s opener) hbody
    simp only [Block.kept, Block.map]
    rw [h.holds_eq hb.1 (.inl rfl) hs, kept hb.2.1 _ hs, kept_tail hb.2.2.1 _ _ hbody,
      kept hb.2.2.2 _ htail]

theorem kept_tail : ∀ {t : Tail L}, t.Spelled d → ∀ (active taken : Bool) {s : S} {s' : S'},
    related s s' → (t.map f).kept d' active taken s' = t.kept d active taken s
  | .endif _, _, _, _, _, _, _ => rfl
  | .elsif l body tail, ht, active, taken, s, s', hs => by
    have hbody := h.after ht.2.1 (active && (!taken && d.holds s l)) hs
    simp only [Tail.kept, Tail.map]
    rw [h.holds_eq ht.1 (.inr rfl) hs, kept ht.2.1 _ hs, kept_tail ht.2.2 _ _ hbody]
  | .otherwise _ body _, ht, active, taken, _, _, hs => kept ht.2.1 (active && !taken) hs

end

mutual

theorem silent : ∀ {b : Block L}, b.Spelled d → ∀ {s : S} {s' : S'}, related s s' →
    (b.map f).silent d' s' = b.silent d s
  | .nil, _, _, _, _ => rfl
  | .line _ _, _, _, _, _ => rfl
  | .group opener body tail rest, hb, s, s', hs => by
    simp only [Block.silent, Block.map]
    rw [h.holds_eq hb.1 (.inl rfl) hs, silent hb.2.1 hs, silent_tail hb.2.2.1 _ hs,
      silent hb.2.2.2 hs]

theorem silent_tail : ∀ {t : Tail L}, t.Spelled d → ∀ (top : Bool) {s : S} {s' : S'}, related s s' →
    (t.map f).silent d' top s' = t.silent d top s
  | .endif _, _, _, _, _, _ => rfl
  | .elsif l body tail, ht, _, s, s', hs => by
    simp only [Tail.silent, Tail.map]
    rw [h.holds_eq ht.1 (.inr rfl) hs, silent ht.2.1 hs, silent_tail ht.2.2 _ hs]
  | .otherwise _ body _, ht, top, _, _, hs => by
    simp only [Tail.silent, Tail.map]
    rw [silent ht.2.1 hs]

end

mutual

theorem regular : ∀ {b : Block L}, b.Spelled d → ∀ {s : S} {s' : S'}, related s s' →
    (b.map f).regular d' s' = b.regular d s
  | .nil, _, _, _, _ => rfl
  | .line l rest, hb, s, s', hs => regular hb.2 (h.keep l s s' hb.1 hs)
  | .group opener body tail rest, hb, s, s', hs => by
    have hbody := h.after hb.2.1 true hs
    have htail := h.after_tail hb.2.2.1 true false hs
    simp only [Block.regular, Block.map]
    rw [h.holds_eq hb.1 (.inl rfl) hs, regular hb.2.1 hs, h.silent_tail hb.2.2.1 true hbody,
      regular hb.2.2.2 hbody, regular_tail hb.2.2.1 hs, regular hb.2.2.2 htail]

theorem regular_tail : ∀ {t : Tail L}, t.Spelled d → ∀ {s : S} {s' : S'}, related s s' →
    (t.map f).regular d' s' = t.regular d s
  | .endif _, _, _, _, _ => rfl
  | .elsif l body tail, ht, s, s', hs => by
    have hbody := h.after ht.2.1 true hs
    simp only [Tail.regular, Tail.map]
    rw [h.holds_eq ht.1 (.inr rfl) hs, regular ht.2.1 hs, h.silent_tail ht.2.2 true hbody,
      regular_tail ht.2.2 hs]
  | .otherwise _ body _, ht, _, _, hs => regular ht.2.1 hs

end

end Writes
end Writes

end Conditional
