import Mathlib.Data.List.Forall2
import Mathlib.Data.List.Infix

/-!
This module contains patterns with wildcards: `one` stands for any one letter, `many` for any list
of letters and every other letter for the letters that are the same.
-/

universe u

namespace Wildcard

variable {α : Type u} [DecidableEq α] (same : α → α → Prop) (one many : α)

def Matches : List α → List α → Prop
  | [], s => s = []
  | p :: ps, s =>
    if p = many then ∃ rest, rest <:+ s ∧ Matches ps rest
    else ∃ c rest, s = c :: rest ∧ (p = one ∨ same p c) ∧ Matches ps rest

theorem Matches.mono {same same' : α → α → Prop} {one many : α} {ps s : List α}
    (h : Matches same one many ps s) (hsame : ∀ p c, same p c → same' p c)
    : Matches same' one many ps s := by
  induction ps generalizing s with
  | nil => exact h
  | cons p ps ih =>
    rw [Matches] at h ⊢
    split
    . next hp =>
      rw [if_pos hp] at h
      obtain ⟨rest, hrest, hmatches⟩ := h
      exact ⟨rest, hrest, ih hmatches⟩
    . next hp =>
      rw [if_neg hp] at h
      obtain ⟨c, rest, heq, htakes, hmatches⟩ := h
      exact ⟨c, rest, heq, htakes.imp_right (hsame p c), ih hmatches⟩

theorem matches_map {f : α → α} {one many : α} (hone : ∀ p, f p = one ↔ p = one)
    (hmany : ∀ p, f p = many ↔ p = many) {ps s : List α}
    : Matches (· = ·) one many (ps.map f) (s.map f)
        ↔ Matches (fun p c => f p = f c) one many ps s := by
  induction ps generalizing s with
  | nil => simp [Matches]
  | cons p ps ih =>
    rw [List.map_cons, Matches, Matches]
    simp only [hmany, hone]
    split
    . constructor
      . rintro ⟨_, hrest, hmatches⟩
        obtain ⟨rest, hsuffix, rfl⟩ := List.suffix_map_iff.mp hrest
        exact ⟨rest, hsuffix, ih.mp hmatches⟩
      . rintro ⟨rest, hrest, hmatches⟩
        exact ⟨rest.map f, hrest.map f, ih.mpr hmatches⟩
    . constructor
      . rintro ⟨_, _, heq, htakes, hmatches⟩
        obtain ⟨c, rest, rfl, rfl, rfl⟩ := List.map_eq_cons_iff.mp heq
        exact ⟨c, rest, rfl, htakes, ih.mp hmatches⟩
      . rintro ⟨c, rest, rfl, htakes, hmatches⟩
        exact ⟨f c, rest.map f, rfl, htakes, ih.mpr hmatches⟩

def Takes (p c : α) : Prop := p = one ∨ p = c

instance (p c : α) : Decidable (Takes one p c) := inferInstanceAs (Decidable (_ ∨ _))

/--
The text belongs to the language where every `many` of the pattern that comes upon a `many` of the
text stands for just that letter.
-/
def MatchesPaired : List α → List α → Prop
  | [], s => s = []
  | p :: ps, s =>
    if p = many then
      if s.head? = some many then MatchesPaired ps s.tail else ∃ rest, rest <:+ s
        ∧ MatchesPaired ps rest
    else
      ∃ c rest, s = c :: rest ∧ Takes one p c ∧ MatchesPaired ps rest

omit [DecidableEq α] in
theorem exists_suffix_iff {P : List α → Prop} {s : List α}
    : (∃ rest, rest <:+ s ∧ P rest) ↔ P s ∨ ∃ rest, rest <:+ s.tail ∧ P rest := by
  cases s with
  | nil => simp
  | cons c s =>
    simp only [List.suffix_cons_iff, List.tail_cons]
    constructor
    . rintro ⟨rest, rfl | hrest, h⟩
      . exact .inl h
      . exact .inr ⟨rest, hrest, h⟩
    . rintro (h | ⟨rest, hrest, h⟩)
      . exact ⟨_, .inl rfl, h⟩
      . exact ⟨rest, .inr hrest, h⟩

section

variable {one many} {ps s : List α} {p c : α}

theorem matchesPaired_many (hs : s.head? ≠ some many)
    : MatchesPaired one many (many :: ps) s
        ↔ ∃ rest, rest <:+ s ∧ MatchesPaired one many ps rest := by
  rw [MatchesPaired, if_pos rfl, if_neg hs]

theorem matchesPaired_of_takes (hmany : one ≠ many) (h : Takes one p c)
    : MatchesPaired one many (p :: ps) (c :: s) ↔ MatchesPaired one many ps s := by
  rw [MatchesPaired]
  split
  . next hp =>
    have hc : c = many := by
      rcases h with rfl | rfl
      . exact absurd hp hmany
      . exact hp
    simp [hc]
  . constructor
    . rintro ⟨d, rest, heq, _, hrest⟩
      rwa [(List.cons.inj heq).2]
    . intro hrest
      exact ⟨c, s, rfl, h, hrest⟩

theorem not_matchesPaired_of_not_takes (hp : p ≠ many) (h : ¬Takes one p c)
    : ¬MatchesPaired one many (p :: ps) (c :: s) := by
  rw [MatchesPaired, if_neg hp]
  rintro ⟨d, rest, heq, htakes, _⟩
  rw [(List.cons.inj heq).1] at h
  exact h htakes

theorem not_matchesPaired_nil : ¬MatchesPaired one many [] (c :: s) := List.cons_ne_nil c s

theorem matchesPaired_nil_iff : MatchesPaired one many ps [] ↔ ∀ p ∈ ps, p = many := by
  induction ps with
  | nil => simp [MatchesPaired]
  | cons p ps ih => by_cases hp : p = many <;> simp [MatchesPaired, hp, ih]

theorem MatchesPaired.exists_suffix (h : MatchesPaired one many (many :: ps) s)
    : ∃ rest, rest <:+ s ∧ MatchesPaired one many ps rest := by
  rw [MatchesPaired, if_pos rfl] at h
  split at h
  . exact ⟨s.tail, List.tail_suffix s, h⟩
  . exact h

theorem MatchesPaired.matches (h : MatchesPaired one many ps s)
    : Matches (· = ·) one many ps s := by
  induction ps generalizing s with
  | nil => exact h
  | cons p ps ih =>
    rw [Matches]
    split
    . next hp =>
      subst hp
      obtain ⟨rest, hrest, hmatches⟩ := h.exists_suffix
      exact ⟨rest, hrest, ih hmatches⟩
    . next hp =>
      rw [MatchesPaired, if_neg hp] at h
      obtain ⟨c, rest, heq, htakes, hmatches⟩ := h
      exact ⟨c, rest, heq, htakes, ih hmatches⟩

theorem matchesPaired_iff_of_notMem (hs : many ∉ s) : MatchesPaired one many ps s
    ↔ Matches (· = ·) one many ps s := by
  refine ⟨MatchesPaired.matches, ?_⟩
  induction ps generalizing s with
  | nil => exact id
  | cons p ps ih =>
    intro h
    rw [Matches] at h
    split at h
    . next hp =>
      subst hp
      obtain ⟨rest, hrest, hmatches⟩ := h
      have hhead : s.head? ≠ some p := fun hhead => hs (List.mem_of_head? hhead)
      exact (matchesPaired_many hhead).mpr ⟨rest, hrest,
        ih (fun hmem => hs (hrest.subset hmem)) hmatches⟩
    . next hp =>
      obtain ⟨c, rest, rfl, htakes, hmatches⟩ := h
      rw [MatchesPaired, if_neg hp]
      exact ⟨c, rest, rfl, htakes, ih (List.not_mem_of_not_mem_cons hs) hmatches⟩

/--
Where the letters of a part of the pattern take letters of the text alone, a match of it that begins
later does not end earlier.
-/
theorem MatchesPaired.catchUp (hmany : one ≠ many) {part taken ps s rest : List α}
    (hpart : List.Forall₂ (Takes one) part taken) (hrest : rest <:+ taken ++ s)
    (h : MatchesPaired one many (part ++ ps) rest)
    : ∃ rest', rest' <:+ s ∧ MatchesPaired one many ps rest' := by
  induction hpart generalizing rest with
  | nil => exact ⟨rest, hrest, h⟩
  | @cons p c part taken htakes _ ih =>
    by_cases hp : p = many
    . subst hp
      obtain rfl : p = c := htakes.resolve_left (Ne.symm hmany)
      rw [List.cons_append, List.suffix_cons_iff] at hrest
      rcases hrest with rfl | hrest
      . rw [List.cons_append, matchesPaired_of_takes hmany htakes] at h
        exact ih List.suffix_rfl h
      . obtain ⟨rest', hrest', hmatches⟩ := h.exists_suffix
        exact ih (hrest'.trans hrest) hmatches
    . rw [List.cons_append, MatchesPaired, if_neg hp] at h
      obtain ⟨d, rest', rfl, _, hmatches⟩ := h
      rw [List.cons_append, List.suffix_cons_iff] at hrest
      rcases hrest with heq | hrest
      . rw [(List.cons.inj heq).2] at hmatches
        exact ih List.suffix_rfl hmatches
      . exact ih ((List.suffix_cons d rest').trans hrest) hmatches

end

end Wildcard
