import Mathlib.Data.List.Basic

/-!
This module contains conditional compilation over lines: the nesting of the lines as a tree, the
reference evaluation of the tree, in which a group selects its first branch whose condition holds,
and the rule that relates it to a flat loop over the lines with a stack of frames. Two kinds of
frames are covered: frames that remember whether a branch of their group was taken, and frames of
one boolean.
-/

universe u v w

namespace Conditional

inductive Kind where
  | plain
  | opens
  | elsif
  | otherwise
  | endif
deriving DecidableEq, Repr

structure Dialect (L : Type u) (S : Type v) where
  kind : L → Kind
  holds : S → L → Bool
  keep : S → L → S

mutual

inductive Block (L : Type u) where
  | nil
  | line (l : L) (rest : Block L)
  | group (opener : L) (body : Block L) (tail : Tail L) (rest : Block L)

inductive Tail (L : Type u) where
  | endif (l : L)
  | elsif (l : L) (body : Block L) (tail : Tail L)
  | otherwise (l : L) (body : Block L) (closer : L)

end

variable {L : Type u} {S : Type v}

mutual

def Block.lines : Block L → List L
  | .nil => []
  | .line l rest => l :: rest.lines
  | .group opener body tail rest => opener :: (body.lines ++ (tail.lines ++ rest.lines))

def Tail.lines : Tail L → List L
  | .endif l => [l]
  | .elsif l body tail => l :: (body.lines ++ tail.lines)
  | .otherwise l body closer => l :: (body.lines ++ [closer])

end

mutual

def Block.Spelled (d : Dialect L S) : Block L → Prop
  | .nil => True
  | .line l rest => d.kind l = .plain ∧ rest.Spelled d
  | .group opener body tail rest =>
    d.kind opener = .opens ∧ body.Spelled d ∧ tail.Spelled d ∧ rest.Spelled d

def Tail.Spelled (d : Dialect L S) : Tail L → Prop
  | .endif l => d.kind l = .endif
  | .elsif l body tail => d.kind l = .elsif ∧ body.Spelled d ∧ tail.Spelled d
  | .otherwise l body closer => d.kind l = .otherwise ∧ body.Spelled d ∧ d.kind closer = .endif

end

mutual

def Block.decidableSpelled (d : Dialect L S) : (b : Block L) → Decidable (b.Spelled d)
  | .nil => .isTrue trivial
  | .line l rest =>
    have := rest.decidableSpelled d
    inferInstanceAs (Decidable (d.kind l = .plain ∧ rest.Spelled d))
  | .group opener body tail rest =>
    have := body.decidableSpelled d
    have := tail.decidableSpelled d
    have := rest.decidableSpelled d
    inferInstanceAs
      (Decidable (d.kind opener = .opens ∧ body.Spelled d ∧ tail.Spelled d ∧ rest.Spelled d))

def Tail.decidableSpelled (d : Dialect L S) : (t : Tail L) → Decidable (t.Spelled d)
  | .endif l => inferInstanceAs (Decidable (d.kind l = .endif))
  | .elsif l body tail =>
    have := body.decidableSpelled d
    have := tail.decidableSpelled d
    inferInstanceAs (Decidable (d.kind l = .elsif ∧ body.Spelled d ∧ tail.Spelled d))
  | .otherwise l body closer =>
    have := body.decidableSpelled d
    inferInstanceAs (Decidable (d.kind l = .otherwise ∧ body.Spelled d ∧ d.kind closer = .endif))

end

instance (d : Dialect L S) (b : Block L) : Decidable (b.Spelled d) := b.decidableSpelled d

mutual

def Block.plains : Block L → Nat
  | .nil => 0
  | .line _ rest => rest.plains + 1
  | .group _ body tail rest => body.plains + (tail.plains + rest.plains)

def Tail.plains : Tail L → Nat
  | .endif _ => 0
  | .elsif _ body tail => body.plains + tail.plains
  | .otherwise _ body _ => body.plains

end

/-!
The reference: `after` is the state behind the lines, `kept` says of each plain line if it is kept.
-/

variable (d : Dialect L S)

mutual

def Block.after (active : Bool) : Block L → S → S
  | .nil, s => s
  | .line l rest, s => rest.after active (if active then d.keep s l else s)
  | .group opener body tail rest, s =>
    rest.after active
      (tail.after active (d.holds s opener) (body.after (active && d.holds s opener) s))

def Tail.after (active taken : Bool) : Tail L → S → S
  | .endif _, s => s
  | .elsif l body tail, s =>
    tail.after active (taken || d.holds s l) (body.after (active && (!taken && d.holds s l)) s)
  | .otherwise _ body _, s => body.after (active && !taken) s

end

mutual

def Block.kept (active : Bool) : Block L → S → List Bool
  | .nil, _ => []
  | .line l rest, s => active :: rest.kept active (if active then d.keep s l else s)
  | .group opener body tail rest, s =>
    let here := active && d.holds s opener
    body.kept here s
      ++ (tail.kept active (d.holds s opener) (body.after d here s)
      ++ rest.kept active (tail.after d active (d.holds s opener) (body.after d here s)))

def Tail.kept (active taken : Bool) : Tail L → S → List Bool
  | .endif _, _ => []
  | .elsif l body tail, s =>
    let here := active && (!taken && d.holds s l)
    body.kept here s ++ tail.kept active (taken || d.holds s l) (body.after d here s)
  | .otherwise _ body _, s => body.kept (active && !taken) s

end

-- What a loop keeps of the groups around a line, one frame a level
structure Frames (F : Type w) where
  active : F → Bool
  -- the frame of a new group, from the frame around it and the condition
  enter : F → Bool → F
  -- the frame after an `elsif`, from the frame around the group, its own frame and the condition
  elsif : F → F → Bool → F
  otherwise : F → F → F

variable {F : Type w} (fr : Frames F)

mutual

def Block.execAfter (top : F) : Block L → S → S
  | .nil, s => s
  | .line l rest, s => rest.execAfter top (if fr.active top then d.keep s l else s)
  | .group opener body tail rest, s =>
    let f := fr.enter top (d.holds s opener)
    rest.execAfter top (tail.execAfter top f (body.execAfter f s))

def Tail.execAfter (parent top : F) : Tail L → S → S
  | .endif _, s => s
  | .elsif l body tail, s =>
    let f := fr.elsif parent top (d.holds s l)
    tail.execAfter parent f (body.execAfter f s)
  | .otherwise _ body _, s => body.execAfter (fr.otherwise parent top) s

end

mutual

def Block.execKept (top : F) : Block L → S → List Bool
  | .nil, _ => []
  | .line l rest, s => fr.active top :: rest.execKept top (if fr.active top then d.keep s l else s)
  | .group opener body tail rest, s =>
    let f := fr.enter top (d.holds s opener)
    body.execKept f s
      ++ (tail.execKept top f (body.execAfter d fr f s)
      ++ rest.execKept top (tail.execAfter d fr top f (body.execAfter d fr f s)))

def Tail.execKept (parent top : F) : Tail L → S → List Bool
  | .endif _, _ => []
  | .elsif l body tail, s =>
    let f := fr.elsif parent top (d.holds s l)
    body.execKept f s ++ tail.execKept parent f (body.execAfter d fr f s)
  | .otherwise _ body _, s => body.execKept (fr.otherwise parent top) s

end

-- The equations of a loop over the lines with a stack of frames; `emit` is what it returns for a
-- plain line
structure IsLoop {R : Type*} (emit : Bool → R → R) (loop : List L → List F → S → R) : Prop where
  plain : ∀ {l ls top below s}, d.kind l = .plain →
    loop (l :: ls) (top :: below) s
      = emit (fr.active top) (loop ls (top :: below) (if fr.active top then d.keep s l else s))
  opens : ∀ {l ls top below s}, d.kind l = .opens →
    loop (l :: ls) (top :: below) s = loop ls (fr.enter top (d.holds s l) :: top :: below) s
  elsif : ∀ {l ls top parent below s}, d.kind l = .elsif →
    loop (l :: ls) (top :: parent :: below) s
      = loop ls (fr.elsif parent top (d.holds s l) :: parent :: below) s
  otherwise : ∀ {l ls top parent below s}, d.kind l = .otherwise →
    loop (l :: ls) (top :: parent :: below) s
      = loop ls (fr.otherwise parent top :: parent :: below) s
  endif : ∀ {l ls top parent below s}, d.kind l = .endif →
    loop (l :: ls) (top :: parent :: below) s = loop ls (parent :: below) s

section

variable {d fr} {R : Type*} {emit : Bool → R → R} {loop : List L → List F → S → R}

structure IsStep (d : Dialect L S) (fr : Frames F) (step : List F → S → L → List F × S) : Prop where
  plain : ∀ {top below s l}, d.kind l = .plain →
    step (top :: below) s l = (top :: below, if fr.active top then d.keep s l else s)
  opens : ∀ {top below s l}, d.kind l = .opens →
    step (top :: below) s l = (fr.enter top (d.holds s l) :: top :: below, s)
  elsif : ∀ {top parent below s l}, d.kind l = .elsif →
    step (top :: parent :: below) s l = (fr.elsif parent top (d.holds s l) :: parent :: below, s)
  otherwise : ∀ {top parent below s l}, d.kind l = .otherwise →
    step (top :: parent :: below) s l = (fr.otherwise parent top :: parent :: below, s)
  endif : ∀ {top parent below s l}, d.kind l = .endif →
    step (top :: parent :: below) s l = (parent :: below, s)

theorem IsStep.isLoop {step : List F → S → L → List F × S} (h : IsStep d fr step)
    (hplain : ∀ l ls top below s, d.kind l = .plain →
      loop (l :: ls) (top :: below) s
        = emit (fr.active top) (loop ls (step (top :: below) s l).1 (step (top :: below) s l).2))
    (hdirective : ∀ l ls stack s, d.kind l ≠ .plain →
      loop (l :: ls) stack s = loop ls (step stack s l).1 (step stack s l).2)
    : IsLoop d fr emit loop where
  plain := by
    intro l ls top below s hl
    rw [hplain l ls top below s hl, h.plain hl]
  opens := by
    intro l ls top below s hl
    rw [hdirective l ls _ s (by simp [hl]), h.opens hl]
  elsif := by
    intro l ls top parent below s hl
    rw [hdirective l ls _ s (by simp [hl]), h.elsif hl]
  otherwise := by
    intro l ls top parent below s hl
    rw [hdirective l ls _ s (by simp [hl]), h.otherwise hl]
  endif := by
    intro l ls top parent below s hl
    rw [hdirective l ls _ s (by simp [hl]), h.endif hl]

mutual

/-- The loop reads a block as its tree is executed, and leaves the stack as it was. -/
theorem IsLoop.block (h : IsLoop d fr emit loop) (top : F) (below : List F) (rest : List L)
    : ∀ (b : Block L) (s : S), b.Spelled d →
        loop (b.lines ++ rest) (top :: below) s
          = (b.execKept d fr top s).foldr emit (loop rest (top :: below) (b.execAfter d fr top s))
  | .nil, _, _ => rfl
  | .line l more, s, hb => by
    simp only [Block.lines, List.cons_append, Block.execKept, Block.execAfter, List.foldr_cons]
    rw [h.plain hb.1, h.block top below rest more _ hb.2]
  | .group opener body tail more, s, hb => by
    simp only [Block.lines, List.cons_append, List.append_assoc, Block.execKept, Block.execAfter,
      List.foldr_append]
    rw [h.opens hb.1, h.block _ _ _ body _ hb.2.1, h.tail _ _ _ _ tail _ hb.2.2.1,
      h.block _ _ _ more _ hb.2.2.2]

theorem IsLoop.tail (h : IsLoop d fr emit loop) (top parent : F) (below : List F) (rest : List L)
    : ∀ (t : Tail L) (s : S), t.Spelled d →
        loop (t.lines ++ rest) (top :: parent :: below) s
          = (t.execKept d fr parent top s).foldr emit
              (loop rest (parent :: below) (t.execAfter d fr parent top s))
  | .endif l, s, ht => h.endif ht
  | .elsif l body more, s, ht => by
    simp only [Tail.lines, List.cons_append, List.append_assoc, Tail.execKept, Tail.execAfter,
      List.foldr_append]
    rw [h.elsif ht.1, h.block _ _ _ body _ ht.2.1, h.tail _ _ _ _ more _ ht.2.2]
  | .otherwise l body closer, s, ht => by
    simp only [Tail.lines, List.cons_append, List.append_assoc, Tail.execKept, Tail.execAfter]
    rw [h.otherwise ht.1, h.block _ _ _ body _ ht.2.1, List.nil_append, h.endif ht.2.2]

end

end

/-! Frames that remember. -/

-- `matched` tells if a branch of the group was taken; `inside p f` that `f` belongs to a group
-- within `p`
structure Remembers (matched : F → Bool) (inside : F → F → Prop) : Prop where
  active_enter : ∀ p c, fr.active (fr.enter p c) = (fr.active p && c)
  matched_enter : ∀ p c, matched (fr.enter p c) = c
  inside_enter : ∀ p c, inside p (fr.enter p c)
  active_elsif : ∀ {p f} c, inside p f →
    fr.active (fr.elsif p f c) = (fr.active p && (!matched f && c))
  matched_elsif : ∀ {p f} c, inside p f → matched (fr.elsif p f c) = (matched f || c)
  inside_elsif : ∀ {p f} c, inside p f → inside p (fr.elsif p f c)
  active_otherwise : ∀ {p f}, inside p f →
    fr.active (fr.otherwise p f) = (fr.active p && !matched f)

section

variable {fr} {matched : F → Bool} {inside : F → F → Prop}

mutual

theorem Remembers.block_after (h : Remembers fr matched inside) (top : F)
    : ∀ (b : Block L) (s : S), b.execAfter d fr top s = b.after d (fr.active top) s
  | .nil, _ => rfl
  | .line l rest, s => by
    simp only [Block.execAfter, Block.after]
    rw [h.block_after top rest]
  | .group opener body tail rest, s => by
    simp only [Block.execAfter, Block.after]
    rw [h.block_after _ body, h.active_enter, h.tail_after _ _ (h.inside_enter _ _) tail,
      h.matched_enter, h.block_after _ rest]

theorem Remembers.tail_after (h : Remembers fr matched inside) (parent top : F)
    (hin : inside parent top)
    : ∀ (t : Tail L) (s : S),
        t.execAfter d fr parent top s = t.after d (fr.active parent) (matched top) s
  | .endif _, _ => rfl
  | .elsif l body tail, s => by
    simp only [Tail.execAfter, Tail.after]
    rw [h.block_after _ body, h.active_elsif _ hin, h.tail_after _ _ (h.inside_elsif _ hin) tail,
      h.matched_elsif _ hin]
  | .otherwise _ body _, s => by
    simp only [Tail.execAfter, Tail.after]
    rw [h.block_after _ body, h.active_otherwise hin]

end

end

/-! Frames of one boolean. -/

-- The frame says if its lines are kept. It does not say if an earlier branch of the group was.
def forgetful : Frames Bool where
  active := id
  enter := fun parent c => parent && c
  elsif := fun parent _ c => parent && c
  otherwise := fun parent top => parent && !top

@[simp]
theorem forgetful_active (top : Bool) : forgetful.active top = top := rfl

@[simp]
theorem forgetful_enter (parent c : Bool) : forgetful.enter parent c = (parent && c) := rfl

@[simp]
theorem forgetful_elsif (parent top c : Bool) : forgetful.elsif parent top c = (parent && c) := rfl

@[simp]
theorem forgetful_otherwise (parent top : Bool)
    : forgetful.otherwise parent top = (parent && !top) := rfl

mutual

def Block.silent : Block L → S → Bool
  | .nil, _ => true
  | .line _ _, _ => false
  | .group opener body tail rest, s =>
    (!d.holds s opener || body.silent s) && tail.silent (d.holds s opener) s && rest.silent s

def Tail.silent (top : Bool) : Tail L → S → Bool
  | .endif _, _ => true
  | .elsif l body tail, s => (!d.holds s l || body.silent s) && tail.silent (d.holds s l) s
  | .otherwise _ body _, s => top || body.silent s

end

mutual

-- In every group reached, the branches behind the one taken are silent
def Block.regular : Block L → S → Bool
  | .nil, _ => true
  | .line l rest, s => rest.regular (d.keep s l)
  | .group opener body tail rest, s =>
    if d.holds s opener then
      body.regular s && tail.silent d true (body.after d true s)
        && rest.regular (body.after d true s)
    else
      tail.regular s && rest.regular (tail.after d true false s)

def Tail.regular : Tail L → S → Bool
  | .endif _, _ => true
  | .elsif l body tail, s =>
    if d.holds s l then
      body.regular s && tail.silent d true (body.after d true s)
    else
      tail.regular s
  | .otherwise _ body _, s => body.regular s

end

mutual

@[simp]
theorem Block.length_kept (active : Bool)
    : ∀ (b : Block L) (s : S), (b.kept d active s).length = b.plains
  | .nil, _ => rfl
  | .line l rest, s => by simp [Block.kept, Block.plains, Block.length_kept active rest]
  | .group opener body tail rest, s => by
    simp [Block.kept, Block.plains, Block.length_kept _ body, Tail.length_kept _ _ tail,
      Block.length_kept _ rest]

@[simp]
theorem Tail.length_kept (active taken : Bool)
    : ∀ (t : Tail L) (s : S), (t.kept d active taken s).length = t.plains
  | .endif _, _ => rfl
  | .elsif l body tail, s => by
    simp [Tail.kept, Tail.plains, Block.length_kept _ body, Tail.length_kept _ _ tail]
  | .otherwise _ body _, s => by simp [Tail.kept, Tail.plains, Block.length_kept _ body]

end

mutual

@[simp]
theorem Block.length_execKept (top : F)
    : ∀ (b : Block L) (s : S), (b.execKept d fr top s).length = b.plains
  | .nil, _ => rfl
  | .line l rest, s => by simp [Block.execKept, Block.plains, Block.length_execKept top rest]
  | .group opener body tail rest, s => by
    simp [Block.execKept, Block.plains, Block.length_execKept _ body, Tail.length_execKept _ _ tail,
      Block.length_execKept _ rest]

@[simp]
theorem Tail.length_execKept (parent top : F)
    : ∀ (t : Tail L) (s : S), (t.execKept d fr parent top s).length = t.plains
  | .endif _, _ => rfl
  | .elsif l body tail, s => by
    simp [Tail.execKept, Tail.plains, Block.length_execKept _ body, Tail.length_execKept _ _ tail]
  | .otherwise _ body _, s => by simp [Tail.execKept, Tail.plains, Block.length_execKept _ body]

end

mutual

@[simp]
theorem Block.after_false : ∀ (b : Block L) (s : S), b.after d false s = s
  | .nil, _ => rfl
  | .line l rest, s => by simp [Block.after, Block.after_false rest]
  | .group opener body tail rest, s => by
    simp [Block.after, Block.after_false body, Tail.after_false _ tail, Block.after_false rest]

@[simp]
theorem Tail.after_false (taken : Bool) : ∀ (t : Tail L) (s : S), t.after d false taken s = s
  | .endif _, _ => rfl
  | .elsif l body tail, s => by simp [Tail.after, Block.after_false body, Tail.after_false _ tail]
  | .otherwise _ body _, s => by simp [Tail.after, Block.after_false body]

end

mutual

@[simp]
theorem Block.kept_false : ∀ (b : Block L) (s : S), b.kept d false s = List.replicate b.plains false
  | .nil, _ => rfl
  | .line l rest, s =>
    by simp [Block.kept, Block.plains, Block.kept_false rest, List.replicate_succ]
  | .group opener body tail rest, s => by
    simp [Block.kept, Block.plains, Block.kept_false body, Tail.kept_false _ tail,
      Block.kept_false rest]

@[simp]
theorem Tail.kept_false (taken : Bool)
    : ∀ (t : Tail L) (s : S), t.kept d false taken s = List.replicate t.plains false
  | .endif _, _ => rfl
  | .elsif l body tail, s =>
    by simp [Tail.kept, Tail.plains, Block.kept_false body, Tail.kept_false _ tail]
  | .otherwise _ body _, s => by simp [Tail.kept, Tail.plains, Block.kept_false body]

end

theorem Tail.after_taken (active : Bool) : ∀ (t : Tail L) (s : S), t.after d active true s = s
  | .endif _, _ => rfl
  | .elsif l body tail, s => by simp [Tail.after, Tail.after_taken active tail]
  | .otherwise _ body _, s => by simp [Tail.after]

theorem Tail.kept_taken (active : Bool)
    : ∀ (t : Tail L) (s : S), t.kept d active true s = List.replicate t.plains false
  | .endif _, _ => rfl
  | .elsif l body tail, s => by simp [Tail.kept, Tail.plains, Tail.kept_taken active tail]
  | .otherwise _ body _, s => by simp [Tail.kept, Tail.plains]

mutual

@[simp]
theorem Block.execAfter_forgetful_false
    : ∀ (b : Block L) (s : S), b.execAfter d forgetful false s = s
  | .nil, _ => rfl
  | .line l rest, s => by simp [Block.execAfter, Block.execAfter_forgetful_false rest]
  | .group opener body tail rest, s => by
    simp [Block.execAfter, Block.execAfter_forgetful_false body,
      Tail.execAfter_forgetful_false _ tail, Block.execAfter_forgetful_false rest]

@[simp]
theorem Tail.execAfter_forgetful_false (top : Bool)
    : ∀ (t : Tail L) (s : S), t.execAfter d forgetful false top s = s
  | .endif _, _ => rfl
  | .elsif l body tail, s => by
    simp [Tail.execAfter, Block.execAfter_forgetful_false body,
      Tail.execAfter_forgetful_false _ tail]
  | .otherwise _ body _, s => by simp [Tail.execAfter, Block.execAfter_forgetful_false body]

end

mutual

@[simp]
theorem Block.execKept_forgetful_false
    : ∀ (b : Block L) (s : S), b.execKept d forgetful false s = List.replicate b.plains false
  | .nil, _ => rfl
  | .line l rest, s => by
    simp [Block.execKept, Block.plains, Block.execKept_forgetful_false rest, List.replicate_succ]
  | .group opener body tail rest, s => by
    simp [Block.execKept, Block.plains, Block.execKept_forgetful_false body,
      Tail.execKept_forgetful_false _ tail, Block.execKept_forgetful_false rest]

@[simp]
theorem Tail.execKept_forgetful_false (top : Bool)
    : ∀ (t : Tail L) (s : S), t.execKept d forgetful false top s = List.replicate t.plains false
  | .endif _, _ => rfl
  | .elsif l body tail, s => by
    simp [Tail.execKept, Tail.plains, Block.execKept_forgetful_false body,
      Tail.execKept_forgetful_false _ tail]
  | .otherwise _ body _, s =>
    by simp [Tail.execKept, Tail.plains, Block.execKept_forgetful_false body]

end

private theorem Block.execAfter_of_cond {b : Block L} {s : S} {c : Bool}
    (h : b.silent d s = true → b.execAfter d forgetful true s = s)
    (hc : (!c || b.silent d s) = true)
    : b.execAfter d forgetful c s = s := by
  cases c with
  | false => simp
  | true => exact h (by simpa using hc)

mutual

theorem Block.execAfter_of_silent
    : ∀ (b : Block L) (s : S), b.silent d s = true → b.execAfter d forgetful true s = s
  | .nil, _, _ => rfl
  | .group opener body tail rest, s, h => by
    simp only [Block.silent, Bool.and_eq_true] at h
    have ⟨⟨hbody, htail⟩, hrest⟩ := h
    simp only [Block.execAfter, forgetful_enter, Bool.true_and]
    rw [Block.execAfter_of_cond d (Block.execAfter_of_silent body s) hbody]
    rw [Tail.execAfter_of_silent _ tail s htail]
    rw [Block.execAfter_of_silent rest s hrest]

theorem Tail.execAfter_of_silent (top : Bool)
    : ∀ (t : Tail L) (s : S), t.silent d top s = true → t.execAfter d forgetful true top s = s
  | .endif _, _, _ => rfl
  | .elsif l body tail, s, h => by
    simp only [Tail.silent, Bool.and_eq_true] at h
    have ⟨hbody, htail⟩ := h
    simp only [Tail.execAfter, forgetful_elsif, Bool.true_and]
    rw [Block.execAfter_of_cond d (Block.execAfter_of_silent body s) hbody]
    exact Tail.execAfter_of_silent _ tail s htail
  | .otherwise _ body _, s, h => by
    simp only [Tail.execAfter, forgetful_otherwise, Bool.true_and]
    apply Block.execAfter_of_cond d (Block.execAfter_of_silent body s)
    rw [Bool.not_not]
    exact h

end

private theorem Block.execKept_eq_replicate_iff_of_cond {b : Block L} {s : S} (c : Bool)
    (h : b.execKept d forgetful true s = List.replicate b.plains false ↔ b.silent d s = true)
    : b.execKept d forgetful c s = List.replicate b.plains false ↔ (!c || b.silent d s) = true := by
  cases c with
  | false => simp
  | true => simpa using h

mutual

theorem Block.execKept_eq_replicate_iff
    : ∀ (b : Block L) (s : S),
        b.execKept d forgetful true s = List.replicate b.plains false ↔ b.silent d s = true
  | .nil, _ => by simp [Block.execKept, Block.plains, Block.silent]
  | .line l rest, s => by simp [Block.execKept, Block.plains, Block.silent, List.replicate_succ]
  | .group opener body tail rest, s => by
    simp only [Block.execKept, Block.plains, List.replicate_add, forgetful_enter,
      Bool.true_and, Block.silent]
    rw [List.append_eq_append_iff_of_size_eq_left (by simp),
      List.append_eq_append_iff_of_size_eq_left (by simp)]
    rw [Bool.and_eq_true, Bool.and_eq_true, and_assoc]
    rw [Block.execKept_eq_replicate_iff_of_cond d _ (Block.execKept_eq_replicate_iff body s)]
    apply and_congr_right
    intro hbody
    rw [Block.execAfter_of_cond d (Block.execAfter_of_silent d body s) hbody]
    rw [Tail.execKept_eq_replicate_iff _ tail s]
    apply and_congr_right
    intro htail
    rw [Tail.execAfter_of_silent d _ tail s htail]
    exact Block.execKept_eq_replicate_iff rest s

theorem Tail.execKept_eq_replicate_iff (top : Bool)
    : ∀ (t : Tail L) (s : S),
        t.execKept d forgetful true top s = List.replicate t.plains false ↔ t.silent d top s = true
  | .endif _, _ => by simp [Tail.execKept, Tail.plains, Tail.silent]
  | .elsif l body tail, s => by
    simp only [Tail.execKept, Tail.plains, List.replicate_add, forgetful_elsif,
      Bool.true_and, Tail.silent]
    rw [List.append_eq_append_iff_of_size_eq_left (by simp), Bool.and_eq_true]
    rw [Block.execKept_eq_replicate_iff_of_cond d _ (Block.execKept_eq_replicate_iff body s)]
    apply and_congr_right
    intro hbody
    rw [Block.execAfter_of_cond d (Block.execAfter_of_silent d body s) hbody]
    exact Tail.execKept_eq_replicate_iff _ tail s
  | .otherwise _ body _, s => by
    simp only [Tail.execKept, Tail.plains, forgetful_otherwise, Bool.true_and, Tail.silent]
    rw [Block.execKept_eq_replicate_iff_of_cond d _ (Block.execKept_eq_replicate_iff body s),
      Bool.not_not]

end

mutual

theorem Block.execAfter_of_regular
    : ∀ (b : Block L) (s : S), b.regular d s = true →
        b.execAfter d forgetful true s = b.after d true s
  | .nil, _, _ => rfl
  | .line l rest, s, h => by
    simp only [Block.execAfter, Block.after, forgetful_active, if_true]
    exact Block.execAfter_of_regular rest _ h
  | .group opener body tail rest, s, h => by
    simp only [Block.execAfter, Block.after, forgetful_enter, Bool.true_and]
    unfold Block.regular at h
    cases hopener : d.holds s opener with
    | true =>
      simp only [hopener, if_true, Bool.and_eq_true] at h
      have ⟨⟨hbody, htail⟩, hrest⟩ := h
      rw [Block.execAfter_of_regular body s hbody]
      rw [Tail.execAfter_of_silent d true tail _ htail, Tail.after_taken]
      exact Block.execAfter_of_regular rest _ hrest
    | false =>
      simp only [hopener, Bool.false_eq_true, if_false, Bool.and_eq_true] at h
      rw [Block.execAfter_forgetful_false, Block.after_false]
      rw [Tail.execAfter_of_regular tail s h.1]
      exact Block.execAfter_of_regular rest _ h.2

theorem Tail.execAfter_of_regular
    : ∀ (t : Tail L) (s : S),
        t.regular d s = true → t.execAfter d forgetful true false s = t.after d true false s
  | .endif _, _, _ => rfl
  | .elsif l body tail, s, h => by
    simp only [Tail.execAfter, Tail.after, forgetful_elsif, Bool.true_and, Bool.not_false,
      Bool.false_or]
    unfold Tail.regular at h
    cases hl : d.holds s l with
    | true =>
      simp only [hl, if_true, Bool.and_eq_true] at h
      rw [Block.execAfter_of_regular body s h.1]
      rw [Tail.execAfter_of_silent d true tail _ h.2, Tail.after_taken]
    | false =>
      simp only [hl, Bool.false_eq_true, if_false] at h
      rw [Block.execAfter_forgetful_false, Block.after_false]
      exact Tail.execAfter_of_regular tail s h
  | .otherwise _ body _, s, h => Block.execAfter_of_regular body s h

end

mutual

/-- A forgetful loop keeps the lines the reference keeps exactly if they are regular. -/
theorem Block.execKept_eq_kept_iff
    : ∀ (b : Block L) (s : S), b.execKept d forgetful true s = b.kept d true s
        ↔ b.regular d s = true
  | .nil, _ => by simp [Block.execKept, Block.kept, Block.regular]
  | .line l rest, s => by
    simp only [Block.execKept, Block.kept, forgetful_active, if_true, List.cons.injEq, true_and,
      Block.regular]
    exact Block.execKept_eq_kept_iff rest _
  | .group opener body tail rest, s => by
    simp only [Block.execKept, Block.kept, forgetful_enter, Bool.true_and]
    rw [List.append_eq_append_iff_of_size_eq_left (by simp),
      List.append_eq_append_iff_of_size_eq_left (by simp)]
    unfold Block.regular
    cases hopener : d.holds s opener with
    | true =>
      rw [if_pos rfl, Bool.and_eq_true, Bool.and_eq_true, and_assoc,
        Block.execKept_eq_kept_iff body s]
      apply and_congr_right
      intro hbody
      rw [Block.execAfter_of_regular d body s hbody]
      rw [Tail.kept_taken, Tail.execKept_eq_replicate_iff, Tail.after_taken]
      apply and_congr_right
      intro htail
      rw [Tail.execAfter_of_silent d true tail _ htail]
      exact Block.execKept_eq_kept_iff rest _
    | false =>
      rw [if_neg Bool.false_ne_true, Bool.and_eq_true]
      simp only [Block.execKept_forgetful_false, Block.kept_false, Block.execAfter_forgetful_false,
        Block.after_false, true_and]
      rw [Tail.execKept_eq_kept_iff tail s]
      apply and_congr_right
      intro htail
      rw [Tail.execAfter_of_regular d tail s htail]
      exact Block.execKept_eq_kept_iff rest _

theorem Tail.execKept_eq_kept_iff
    : ∀ (t : Tail L) (s : S),
        t.execKept d forgetful true false s = t.kept d true false s ↔ t.regular d s = true
  | .endif _, _ => by simp [Tail.execKept, Tail.kept, Tail.regular]
  | .elsif l body tail, s => by
    simp only [Tail.execKept, Tail.kept, forgetful_elsif, Bool.true_and, Bool.not_false,
      Bool.false_or]
    rw [List.append_eq_append_iff_of_size_eq_left (by simp)]
    unfold Tail.regular
    cases hl : d.holds s l with
    | true =>
      rw [if_pos rfl, Bool.and_eq_true, Block.execKept_eq_kept_iff body s]
      apply and_congr_right
      intro hbody
      rw [Block.execAfter_of_regular d body s hbody]
      rw [Tail.kept_taken, Tail.execKept_eq_replicate_iff]
    | false =>
      rw [if_neg Bool.false_ne_true]
      simp only [Block.execKept_forgetful_false, Block.kept_false, Block.execAfter_forgetful_false,
        Block.after_false, true_and]
      exact Tail.execKept_eq_kept_iff tail s
  | .otherwise _ body _, s => Block.execKept_eq_kept_iff body s

end

end Conditional
