import HdlGraph.Library.Unicode
import HdlGraph.Library.Walk
import HdlGraph.Library.Wildcard

/-!
This module contains the matcher of glob patterns and when it accepts the language of a pattern.
-/

namespace HdlGraph

open Text Walk Wildcard

structure GlobLoop where
  pi : Nat
  ti : Nat
  -- `star_pi` and `star_ti`; `star_pi` is `usize::MAX` while there is none
  star : Option (Nat × Nat)
  deriving DecidableEq, Repr

def globMatchStep (pat txt : Text) (s : GlobLoop) : Bool ⊕ GlobLoop :=
  match txt[s.ti]? with
  | none =>
    -- The trailing stars are skipped
    .inl ((pat.drop s.pi).dropWhile (· = '*')).isEmpty
  | some c =>
    if pat[s.pi]? = some '?' || pat[s.pi]? = some c then
      .inr { s with pi := s.pi + 1, ti := s.ti + 1 }
    else if pat[s.pi]? = some '*' then
      .inr { s with pi := s.pi + 1, star := some (s.pi, s.ti) }
    else
      match s.star with
      | some (starPi, starTi) => .inr ⟨starPi + 1, starTi + 1, some (starPi, starTi + 1)⟩
      | none => .inl false

def globMatchRecursive (fuel : Nat) (pat txt : Text) : Option Bool :=
  climb (globMatchStep pat txt) fuel ⟨0, 0, none⟩

def globMatchInner (u : Unicode) (fuel : Nat) (pattern text : Text) : Option Bool :=
  globMatchRecursive fuel (u.toLowercase pattern) (u.toLowercase text)

def globMatch (u : Unicode) (fuel : Nat) (pattern text : Text) : Option Bool :=
  if pattern.isEmpty || pattern = "*".toList then
    some true
  else if '*' ∈ pattern ∨ '?' ∈ pattern then
    globMatchInner u fuel pattern text
  else
    some (contains (u.toLowercase text) (u.toLowercase pattern))

namespace Glob

/-- `?` stands for any one character, `*` for any text and every other character for itself. -/
def InLanguage (pat txt : Text) : Prop := Matches (· = ·) '?' '*' pat txt

/--
The text is still in the language where a `*` of the pattern that comes upon a `*` of the text
stands for just that.
-/
def InPairedLanguage (pat txt : Text) : Prop := MatchesPaired '?' '*' pat txt

variable {pat txt : Text}

theorem InPairedLanguage.inLanguage (h : InPairedLanguage pat txt) : InLanguage pat txt :=
  MatchesPaired.matches h

/-! ## What the loop knows -/

-- Whether the text is accepted from here on: as it stands, or with the last star over more of it
def Accepts (pat txt : Text) (s : GlobLoop) : Prop :=
  MatchesPaired '?' '*' (pat.drop s.pi) (txt.drop s.ti)
    ∨ ∃ starPi starTi, s.star = some (starPi, starTi)
        ∧ ∃ rest, rest <:+ txt.drop (starTi + 1)
          ∧ MatchesPaired '?' '*' (pat.drop (starPi + 1)) rest

structure Invariant (pat txt : Text) (s : GlobLoop) : Prop where
  pi_le : s.pi ≤ pat.length
  ti_le : s.ti ≤ txt.length
  star_le : ∀ starPi starTi, s.star = some (starPi, starTi) → starPi < pat.length ∧ starTi ≤ s.ti
  taken : ∀ starPi starTi, s.star = some (starPi, starTi) →
    ∃ part span, List.Forall₂ (Takes '?') part span
    ∧ pat.drop (starPi + 1) = part ++ pat.drop s.pi ∧ txt.drop starTi = span ++ txt.drop s.ti

theorem drop_eq_cons {s : Text} {i : Nat} {c : Char} (h : s[i]? = some c)
    : s.drop i = c :: s.drop (i + 1) := by
  obtain ⟨hi, rfl⟩ := List.getElem?_eq_some_iff.mp h
  exact List.drop_eq_getElem_cons hi

def Stuck (pat : Text) (pi : Nat) (c : Char) : Prop :=
  ∀ p, pat[pi]? = some p → p ≠ '*' ∧ ¬Takes '?' p c

theorem stuck_of_not {pi : Nat} {c : Char} (htakes : ¬(pat[pi]? = some '?' ∨ pat[pi]? = some c))
    (hstar : ¬pat[pi]? = some '*')
    : Stuck pat pi c := by
  intro p hp
  constructor
  . rintro rfl
    exact hstar hp
  . rintro (rfl | rfl)
    . exact htakes (.inl hp)
    . exact htakes (.inr hp)

theorem not_matchesPaired_of_stuck {pi : Nat} {c : Char} (h : Stuck pat pi c) (rest : Text)
    : ¬MatchesPaired '?' '*' (pat.drop pi) (c :: rest) := by
  cases hp : pat[pi]? with
  | none =>
    rw [List.drop_eq_nil_of_le (List.getElem?_eq_none_iff.mp hp)]
    exact not_matchesPaired_nil
  | some p =>
    rw [drop_eq_cons hp]
    exact not_matchesPaired_of_not_takes (h p hp).1 (h p hp).2

theorem step_cases {s s' : GlobLoop} (h : globMatchStep pat txt s = .inr s')
    : ∃ c, txt[s.ti]? = some c
        ∧ ((∃ p, pat[s.pi]? = some p ∧ Takes '?' p c
            ∧ s' = { s with pi := s.pi + 1, ti := s.ti + 1 })
          ∨ (pat[s.pi]? = some '*' ∧ c ≠ '*'
              ∧ s' = { s with pi := s.pi + 1, star := some (s.pi, s.ti) })
          ∨ (Stuck pat s.pi c ∧ ∃ starPi starTi, s.star = some (starPi, starTi)
              ∧ s' = ⟨starPi + 1, starTi + 1, some (starPi, starTi + 1)⟩)) := by
  unfold globMatchStep at h
  split at h
  . contradiction
  . next c hc =>
    refine ⟨c, hc, ?_⟩
    simp only [Bool.or_eq_true, decide_eq_true_eq] at h
    split at h
    . next htakes =>
      left
      rcases htakes with hp | hp
      . exact ⟨'?', hp, .inl rfl, (Sum.inr.inj h).symm⟩
      . exact ⟨c, hp, .inr rfl, (Sum.inr.inj h).symm⟩
    . next htakes =>
      split at h
      . next hp =>
        right; left
        refine ⟨hp, ?_, (Sum.inr.inj h).symm⟩
        rintro rfl
        exact htakes (.inr hp)
      . next hstar =>
        right; right
        split at h
        . next starPi starTi hs =>
          exact ⟨stuck_of_not htakes hstar, starPi, starTi, hs, (Sum.inr.inj h).symm⟩
        . contradiction

theorem stop_cases {s : GlobLoop} {matched : Bool} (h : globMatchStep pat txt s = .inl matched)
    : (txt[s.ti]? = none ∧ (matched = true ↔ ∀ p ∈ pat.drop s.pi, p = '*'))
        ∨ ∃ c, txt[s.ti]? = some c ∧ Stuck pat s.pi c ∧ s.star = none ∧ matched = false := by
  unfold globMatchStep at h
  split at h
  . next hend =>
    obtain rfl := Sum.inl.inj h
    left
    refine ⟨hend, ?_⟩
    rw [List.isEmpty_iff, List.dropWhile_eq_nil_iff]
    simp
  . next c hc =>
    right
    refine ⟨c, hc, ?_⟩
    simp only [Bool.or_eq_true, decide_eq_true_eq] at h
    split at h
    . contradiction
    . next htakes =>
      split at h
      . contradiction
      . next hstar =>
        split at h
        . contradiction
        . next hs =>
          exact ⟨stuck_of_not htakes hstar, hs, (Sum.inl.inj h).symm⟩

/-! ## What a round keeps -/

theorem Invariant.init : Invariant pat txt ⟨0, 0, none⟩ where
  pi_le := Nat.zero_le _
  ti_le := Nat.zero_le _
  star_le := by simp
  taken := by simp

theorem Invariant.next {s s' : GlobLoop} (h : Invariant pat txt s)
    (hstep : globMatchStep pat txt s = .inr s')
    : Invariant pat txt s' := by
  obtain ⟨c, hc, ⟨p, hp, htakes, rfl⟩ | ⟨hp, _, rfl⟩ | ⟨_, starPi, starTi, hs, rfl⟩⟩ :=
    step_cases hstep
  . have hpi := (List.getElem?_eq_some_iff.mp hp).1
    have hti := (List.getElem?_eq_some_iff.mp hc).1
    constructor
    case pi_le => exact hpi
    case ti_le => exact hti
    case star_le =>
      intro starPi starTi hs
      have ⟨hlt, hle⟩ := h.star_le starPi starTi hs
      exact ⟨hlt, Nat.le_succ_of_le hle⟩
    case taken =>
      intro starPi starTi hs
      obtain ⟨part, span, hpart, hpat, htxt⟩ := h.taken starPi starTi hs
      refine ⟨part ++ [p], span ++ [c], List.rel_append hpart (.cons htakes .nil), ?_, ?_⟩
      . rw [hpat, drop_eq_cons hp, List.append_assoc, List.singleton_append]
      . rw [htxt, drop_eq_cons hc, List.append_assoc, List.singleton_append]
  . have hpi := (List.getElem?_eq_some_iff.mp hp).1
    constructor
    case pi_le => exact hpi
    case ti_le => exact h.ti_le
    case star_le =>
      rintro _ _ ⟨rfl⟩
      exact ⟨hpi, Nat.le_refl _⟩
    case taken =>
      rintro _ _ ⟨rfl⟩
      exact ⟨[], [], .nil, rfl, rfl⟩
  . have ⟨hlt, hle⟩ := h.star_le starPi starTi hs
    have hti := (List.getElem?_eq_some_iff.mp hc).1
    constructor
    case pi_le => exact hlt
    case ti_le => exact Nat.lt_of_le_of_lt hle hti
    case star_le =>
      rintro _ _ ⟨rfl⟩
      exact ⟨hlt, Nat.le_refl _⟩
    case taken =>
      rintro _ _ ⟨rfl⟩
      exact ⟨[], [], .nil, rfl, rfl⟩

theorem Invariant.catchUp {s : GlobLoop} (h : Invariant pat txt s) {starPi starTi : Nat}
    (hs : s.star = some (starPi, starTi)) {rest : Text} (hrest : rest <:+ txt.drop (starTi + 1))
    (hmatches : MatchesPaired '?' '*' (pat.drop (starPi + 1)) rest)
    : ∃ rest', rest' <:+ txt.drop s.ti ∧ MatchesPaired '?' '*' (pat.drop s.pi) rest' := by
  obtain ⟨part, span, hpart, hpat, htxt⟩ := h.taken starPi starTi hs
  rw [hpat] at hmatches
  have hlater : txt.drop (starTi + 1) <:+ span ++ txt.drop s.ti := by
    rw [← htxt, ← List.tail_drop]
    exact List.tail_suffix _
  exact hmatches.catchUp (by decide) hpart (hrest.trans hlater)

theorem Invariant.accepts_iff {s s' : GlobLoop} (h : Invariant pat txt s)
    (hstep : globMatchStep pat txt s = .inr s')
    : Accepts pat txt s ↔ Accepts pat txt s' := by
  obtain ⟨c, hc, ⟨p, hp, htakes, rfl⟩ | ⟨hp, hne, rfl⟩ | ⟨hstuck, starPi, starTi, hs, rfl⟩⟩ :=
    step_cases hstep
  . unfold Accepts
    rw [drop_eq_cons hp, drop_eq_cons hc, matchesPaired_of_takes (by decide) htakes]
  . have hhead : (txt.drop s.ti).head? ≠ some '*' := by
      rw [drop_eq_cons hc]
      simpa using hne
    -- The older star is forgotten: what it could give, the new one gives too
    have hhere : MatchesPaired '?' '*' (pat.drop s.pi) (txt.drop s.ti)
        ↔ ∃ rest, rest <:+ txt.drop s.ti ∧ MatchesPaired '?' '*' (pat.drop (s.pi + 1)) rest := by
      rw [drop_eq_cons hp, matchesPaired_many hhead]
    have hnew : Accepts pat txt { s with pi := s.pi + 1, star := some (s.pi, s.ti) }
        ↔ ∃ rest, rest <:+ txt.drop s.ti ∧ MatchesPaired '?' '*' (pat.drop (s.pi + 1)) rest := by
      rw [exists_suffix_iff, List.tail_drop]
      simp [Accepts]
    rw [hnew]
    constructor
    . rintro (hmatches | ⟨starPi, starTi, hs, rest, hrest, hmatches⟩)
      . exact hhere.mp hmatches
      . obtain ⟨rest', hrest', hmatches'⟩ := h.catchUp hs hrest hmatches
        rw [drop_eq_cons hp] at hmatches'
        obtain ⟨rest'', hrest'', hlast⟩ := hmatches'.exists_suffix
        exact ⟨rest'', hrest''.trans hrest', hlast⟩
    . intro hlater
      exact .inl (hhere.mpr hlater)
  . have hno : ¬MatchesPaired '?' '*' (pat.drop s.pi) (txt.drop s.ti) := by
      rw [drop_eq_cons hc]
      exact not_matchesPaired_of_stuck hstuck _
    have hold : Accepts pat txt s
        ↔ ∃ rest, rest <:+ txt.drop (starTi + 1)
          ∧ MatchesPaired '?' '*' (pat.drop (starPi + 1)) rest := by
      simp [Accepts, hno, hs]
    rw [hold, exists_suffix_iff, List.tail_drop]
    simp [Accepts]

theorem Invariant.stop {s : GlobLoop} {matched : Bool} (h : Invariant pat txt s)
    (hstep : globMatchStep pat txt s = .inl matched)
    : matched = true ↔ Accepts pat txt s := by
  obtain ⟨hend, hmatched⟩ | ⟨c, hc, hstuck, hs, rfl⟩ := stop_cases hstep
  . have htxt : txt.drop s.ti = [] := List.drop_eq_nil_of_le (List.getElem?_eq_none_iff.mp hend)
    have hhere : MatchesPaired '?' '*' (pat.drop s.pi) (txt.drop s.ti)
        ↔ ∀ p ∈ pat.drop s.pi, p = '*' := by
      rw [htxt, matchesPaired_nil_iff]
    rw [hmatched, ← hhere]
    refine ⟨.inl, ?_⟩
    rintro (hmatches | ⟨starPi, starTi, hs, rest, hrest, hmatches⟩)
    . exact hmatches
    . obtain ⟨rest', hrest', hmatches'⟩ := h.catchUp hs hrest hmatches
      rw [htxt, List.suffix_nil] at hrest'
      rwa [htxt, ← hrest']
  . rw [Accepts, drop_eq_cons hc]
    simp [not_matchesPaired_of_stuck hstuck, hs]

/-! ## Termination -/

-- The last star moves to the right; while it stays, the rests of the text and the pattern get
-- shorter
def rank (pat txt : Text) (s : GlobLoop) : Nat :=
  (match s.star with
    | some (_, starTi) => txt.length - starTi
    | none => txt.length + 1) * (txt.length + pat.length + 1)
    + ((txt.length - s.ti) + (pat.length - s.pi))

theorem lt_of_fst_lt {a a' b b' m : Nat} (ha : a' < a) (hb : b' < m) : a' * m + b' < a * m + b := by
  have := Nat.mul_le_mul_right m ha
  rw [Nat.succ_mul] at this
  omega

theorem lt_of_fst_le {a a' b b' : Nat} (m : Nat) (ha : a' ≤ a) (hb : b' < b)
    : a' * m + b' < a * m + b := by
  have := Nat.mul_le_mul_right m ha
  omega

theorem Invariant.rank_lt {s s' : GlobLoop} (h : Invariant pat txt s)
    (hstep : globMatchStep pat txt s = .inr s')
    : rank pat txt s' < rank pat txt s := by
  obtain ⟨c, hc, ⟨p, hp, _, rfl⟩ | ⟨hp, _, rfl⟩ | ⟨_, starPi, starTi, hs, rfl⟩⟩ := step_cases hstep
  . have hpi := (List.getElem?_eq_some_iff.mp hp).1
    apply lt_of_fst_le _ (Nat.le_refl _)
    dsimp
    omega
  . have hpi := (List.getElem?_eq_some_iff.mp hp).1
    apply lt_of_fst_le
    . dsimp
      split
      . next starPi starTi hs => exact Nat.sub_le_sub_left (h.star_le starPi starTi hs).2 _
      . omega
    . dsimp
      omega
  . have ⟨hlt, hle⟩ := h.star_le starPi starTi hs
    have hti := (List.getElem?_eq_some_iff.mp hc).1
    rw [rank, rank, hs]
    apply lt_of_fst_lt
    . dsimp
      omega
    . omega

theorem globMatchStep_ends (pat txt : Text)
    : ∃ matched, Ends (globMatchStep pat txt) ⟨0, 0, none⟩ matched
        ∧ (matched = true ↔ InPairedLanguage pat txt) := by
  have hsome :=
    climb_isSome_of_rank (rank pat txt)
      (fun _ _ hs hstep => ⟨Invariant.next hs hstep, Invariant.rank_lt hs hstep⟩)
    Invariant.init (Nat.lt_succ_self _)
  obtain ⟨matched, hmatched⟩ := Option.isSome_iff_exists.mp hsome
  refine ⟨matched, ends_of_climb hmatched, ?_⟩
  have hspec : matched = true ↔ Accepts pat txt ⟨0, 0, none⟩ := by
    apply climb_induction (P := fun s => Invariant pat txt s
      ∧ (Accepts pat txt s ↔ Accepts pat txt ⟨0, 0, none⟩))
      (Q := fun matched => matched = true ↔ Accepts pat txt ⟨0, 0, none⟩) ?_ ?_
        ⟨Invariant.init, Iff.rfl⟩ hmatched
    . rintro s s' ⟨hs, haccepts⟩ hstep
      exact ⟨hs.next hstep, (hs.accepts_iff hstep).symm.trans haccepts⟩
    . rintro s matched ⟨hs, haccepts⟩ hstep
      exact (hs.stop hstep).trans haccepts
  rw [hspec]
  simp [Accepts, InPairedLanguage]

theorem inPairedLanguage_iff_of_notMem (h : '*' ∉ txt) : InPairedLanguage pat txt
    ↔ InLanguage pat txt :=
  matchesPaired_iff_of_notMem h

end Glob

open Glob in
/--
The matcher terminates. It is right about a text if and only if a text in the language is still in
it when each star that comes upon a `*` of the text stands for just that character.
-/
theorem globMatchRecursive_exact_iff (pat txt : Text)
    : ∃ matched bound, (∀ fuel, bound < fuel → globMatchRecursive fuel pat txt = some matched)
        ∧ ((matched = true ↔ InLanguage pat txt)
            ↔ (InLanguage pat txt → InPairedLanguage pat txt)) := by
  obtain ⟨matched, ⟨bound, hbound⟩, hmatched⟩ := globMatchStep_ends pat txt
  refine ⟨matched, bound, hbound, ?_⟩
  rw [hmatched]
  constructor
  . exact fun h => h.mpr
  . exact fun h => ⟨InPairedLanguage.inLanguage, h⟩

open Glob in
-- The star of the pattern is taken for the one of the text and gone
theorem not_globMatchRecursive_exact_star
    : ¬∀ pat txt : Text,
        ∃ matched bound, (∀ fuel, bound < fuel → globMatchRecursive fuel pat txt = some matched)
        ∧ (matched = true ↔ InLanguage pat txt) := by
  intro h
  obtain ⟨matched, bound, hbound, hmatched⟩ := h "*".toList "*a".toList
  have hends : Ends (globMatchStep "*".toList "*a".toList) ⟨0, 0, none⟩ false :=
    ends_of_climb (show globMatchRecursive 2 "*".toList "*a".toList = some false by decide)
  have hfalse : matched = false := Ends.unique ⟨bound, hbound⟩ hends
  have hin : InLanguage "*".toList "*a".toList := by
    rw [InLanguage, show "*".toList = ['*'] from rfl, Matches, if_pos rfl]
    exact ⟨[], List.nil_suffix, rfl⟩
  rw [hmatched.mpr hin] at hfalse
  contradiction

end HdlGraph
