import HdlGraph.Library.Text

/-!
This module contains positions in a text, and lists of them in which each is written relative to the
one before.
-/

structure LineCol where
  line : Nat
  col : Nat
  deriving DecidableEq, Repr

namespace LineCol

-- Of the character behind a text: lines end at `\n`, columns count characters
def behind (front : Text) : LineCol := ⟨front.count '\n', (front.rtakeWhile (· ≠ '\n')).length⟩

def Before (p q : LineCol) : Prop := p.line < q.line ∨ p.line = q.line ∧ p.col < q.col

def NotAfter (p q : LineCol) : Prop := p.line < q.line ∨ p.line = q.line ∧ p.col ≤ q.col

instance (p q : LineCol) : Decidable (Before p q) := inferInstanceAs (Decidable (_ ∨ _))

instance (p q : LineCol) : Decidable (NotAfter p q) := inferInstanceAs (Decidable (_ ∨ _))

theorem Before.trans {p q r : LineCol} (h : Before p q) (h' : Before q r) : Before p r := by
  unfold Before at *
  omega

theorem Before.notAfter {p q : LineCol} (h : Before p q) : NotAfter p q := by
  unfold Before at h
  unfold NotAfter
  omega

theorem Before.trans_notAfter {p q r : LineCol} (h : Before p q) (h' : NotAfter q r)
    : Before p r := by
  unfold NotAfter at h'
  unfold Before at *
  omega

theorem origin_notAfter (p : LineCol) : NotAfter ⟨0, 0⟩ p := by
  unfold NotAfter
  dsimp
  omega

theorem behind_newline (front : Text)
    : behind (front ++ ['\n']) = ⟨(behind front).line + 1, 0⟩ := by
  simp [behind]

theorem behind_append {s : Text} (h : '\n' ∉ s) (front : Text)
    : behind (front ++ s) = ⟨(behind front).line, (behind front).col + s.length⟩ := by
  have hall : ∀ c ∈ s.reverse, decide (c ≠ '\n') = true := by
    intro c hc
    rw [decide_eq_true_eq]
    rintro rfl
    exact h (List.mem_reverse.mp hc)
  simp only [behind, List.count_append, List.count_eq_zero.mpr h, List.rtakeWhile,
    List.reverse_append, List.takeWhile_append_of_pos hall]
  simp [Nat.add_comm]

/-! ## Moving over a text -/

def next (p : LineCol) (c : Char) : LineCol :=
  if c = '\n' then ⟨p.line + 1, 0⟩ else ⟨p.line, p.col + 1⟩

def after (p : LineCol) (s : Text) : LineCol := s.foldl next p

@[simp]
theorem after_nil (p : LineCol) : p.after [] = p := rfl

@[simp]
theorem after_cons (p : LineCol) (c : Char) (s : Text)
    : p.after (c :: s) = (p.next c).after s := rfl

theorem next_behind (front : Text) (c : Char) : (behind front).next c = behind (front ++ [c]) := by
  unfold next
  split
  . next hc => rw [hc, behind_newline]
  . next hc => rw [behind_append (by simpa using Ne.symm hc), List.length_singleton]

theorem after_behind (front s : Text) : (behind front).after s = behind (front ++ s) := by
  induction s generalizing front with
  | nil => rw [after_nil, List.append_nil]
  | cons c s ih => rw [after_cons, next_behind, ih, List.append_assoc, List.singleton_append]

theorem after_of_notMem {s : Text} (h : '\n' ∉ s) (p : LineCol)
    : p.after s = ⟨p.line, p.col + s.length⟩ := by
  induction s generalizing p with
  | nil => rfl
  | cons c s ih =>
    rw [after_cons, next, if_neg (List.ne_of_not_mem_cons h).symm,
      ih (List.not_mem_of_not_mem_cons h), List.length_cons, Nat.add_assoc, Nat.add_comm 1]

theorem after_le (p : LineCol) (s : Text)
    : (p.after s).line ≤ p.line + s.length ∧ (p.after s).col ≤ p.col + s.length := by
  induction s generalizing p with
  | nil => exact ⟨Nat.le_refl _, Nat.le_refl _⟩
  | cons c s ih =>
    have hnext : (p.next c).line ≤ p.line + 1 ∧ (p.next c).col ≤ p.col + 1 := by
      unfold next
      split <;> simp
    have := ih (p.next c)
    rw [after_cons, List.length_cons]
    omega

theorem before_next (p : LineCol) (c : Char) : Before p (p.next c) := by
  unfold Before next
  split
  . exact .inl (Nat.lt_succ_self _)
  . exact .inr ⟨rfl, Nat.lt_succ_self _⟩

theorem before_after {s : Text} (h : s ≠ []) (p : LineCol) : Before p (p.after s) := by
  induction s generalizing p with
  | nil => contradiction
  | cons c s ih =>
    rw [after_cons]
    by_cases hs : s = []
    . rw [hs]
      exact before_next p c
    . exact (before_next p c).trans (ih hs _)

/-! ## Relative positions -/

structure Delta where
  line : Nat
  start : Nat
  deriving DecidableEq, Repr

-- The differences are cut off at zero
def delta (prev p : LineCol) : Delta :=
  if p.line = prev.line then ⟨0, p.col - prev.col⟩ else ⟨p.line - prev.line, p.col⟩

def shift (prev : LineCol) (d : Delta) : LineCol :=
  if d.line = 0 then ⟨prev.line, prev.col + d.start⟩ else ⟨prev.line + d.line, d.start⟩

theorem shift_delta_iff {prev p : LineCol} : shift prev (delta prev p) = p ↔ NotAfter prev p := by
  obtain ⟨line, col⟩ := p
  simp only [shift, delta, NotAfter]
  split
  . next hline =>
    simp only [if_true, LineCol.mk.injEq]
    omega
  . next hline =>
    by_cases hle : line ≤ prev.line
    . have hzero : line - prev.line = 0 := by omega
      simp only [hzero, if_true, LineCol.mk.injEq]
      omega
    . have hzero : line - prev.line ≠ 0 := by omega
      simp only [if_neg hzero, LineCol.mk.injEq, and_true]
      omega

variable {β : Type*}

def encode : LineCol → List (LineCol × β) → List (Delta × β)
  | _, [] => []
  | prev, (p, b) :: rest => (delta prev p, b) :: encode p rest

def decode : LineCol → List (Delta × β) → List (LineCol × β)
  | _, [] => []
  | prev, (d, b) :: rest => (shift prev d, b) :: decode (shift prev d) rest

theorem decode_encode {prev : LineCol} {items : List (LineCol × β)}
    (h : (prev :: items.map Prod.fst).IsChain NotAfter)
    : decode prev (encode prev items) = items := by
  induction items generalizing prev with
  | nil => rfl
  | cons item rest ih =>
    rw [List.map_cons, List.isChain_cons_cons] at h
    rw [encode, decode, shift_delta_iff.mpr h.1, ih h.2]

theorem isChain_of_pairwise {items : List LineCol} (h : items.Pairwise Before)
    : (⟨0, 0⟩ :: items).IsChain NotAfter := by
  have hchain : (⟨0, 0⟩ :: items).Pairwise NotAfter := by
    rw [List.pairwise_cons]
    exact ⟨fun p _ => origin_notAfter p, h.imp Before.notAfter⟩
  exact hchain.isChain

end LineCol
