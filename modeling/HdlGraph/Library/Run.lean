import HdlGraph.Library.Text

/-!
This module contains the maximal runs of characters of one kind in a text, and the two loops that
find the ends of the one around a place.
-/

namespace Text

variable (p : Char → Bool)

/-- A run of characters in a text that cannot be made longer. -/
structure Run (s : Text) where
  front : Text
  word : Text
  back : Text
  eq : s = front ++ (word ++ back)
  all : ∀ c ∈ word, p c = true
  left : ∀ c ∈ front.getLast?, p c = false
  right : ∀ c ∈ back.head?, p c = false

-- `while start > 0 && p(chars[start - 1])`
def runStart (s : Text) : Nat → Nat
  | 0 => 0
  | start + 1 => if s[start]?.any p then runStart s start else start + 1

-- `while end < len && p(chars[end])`; the text is what is left from the index on
def runEnd : Text → Nat → Nat
  | [], stop => stop
  | c :: rest, stop => if p c then runEnd rest (stop + 1) else stop

def runAround (s : Text) (col : Nat) : Run p s where
  front := (s.take col).rdropWhile p
  word := (s.take col).rtakeWhile p ++ (s.drop col).takeWhile p
  back := (s.drop col).dropWhile p
  eq := by
    rw [List.append_assoc, List.takeWhile_append_dropWhile, ← List.append_assoc,
      List.rdropWhile_append_rtakeWhile, List.take_append_drop]
  all := by
    intro c hc
    rcases List.mem_append.mp hc with hc | hc
    . exact List.mem_rtakeWhile_imp hc
    . exact List.mem_takeWhile_imp hc
  left := by
    intro c hc
    have hne := List.ne_nil_of_mem (List.mem_of_getLast? hc)
    rw [List.getLast?_eq_some_getLast hne, Option.mem_some_iff] at hc
    rw [← hc, ← Bool.not_eq_true]
    exact List.rdropWhile_last_not p _ hne
  right := by
    intro c hc
    simpa [Option.mem_def.mp hc] using head?_dropWhile_all p (s.drop col)

variable {p} {s : Text} {col : Nat}

namespace Run

def start (r : Run p s) : Nat := r.front.length

def stop (r : Run p s) : Nat := r.front.length + r.word.length

theorem slice_eq (r : Run p s) : (s.take r.stop).drop r.start = r.word := by
  have hslice : ((r.front ++ (r.word ++ r.back)).take (r.front.length + r.word.length)).drop
      r.front.length = r.word := by
    rw [List.take_length_add_append, List.take_left, List.drop_left]
  rwa [← r.eq] at hslice

theorem getElem?_start (r : Run p s) {i : Nat} (h : r.start = i + 1) {c : Char}
    (hc : s[i]? = some c) : p c = false := by
  apply r.left
  have hlast : r.front[i]? = some c := by
    rw [r.eq, List.getElem?_append_left (by rw [← start]; omega)] at hc
    exact hc
  rw [Option.mem_def, List.getLast?_eq_getElem?, ← hlast]
  congr
  rw [← start]
  omega

theorem slice_ne_word (r : Run p s) (hstart : r.start ≤ col) (hstop : col < r.stop) (i : Nat)
    : (s.take col).drop i ≠ r.word := by
  intro hslice
  have hlength : s.length = r.front.length + (r.word.length + r.back.length) := by
    simpa only [List.length_append] using congrArg List.length r.eq
  unfold start at hstart
  unfold stop at hstop
  have hwordLength : col - i = r.word.length := by
    rw [← hslice, List.length_drop, List.length_take]
    omega
  -- The text is as long as the run, so it begins in front of it
  obtain ⟨j, hj⟩ : ∃ j, r.front.length = j + 1 := ⟨r.front.length - 1, by omega⟩
  have hlt : j < s.length := by omega
  have hmem : s[j] ∈ r.word := by
    rw [← hslice, List.mem_iff_getElem?]
    refine ⟨j - i, ?_⟩
    rw [List.getElem?_drop, Nat.add_sub_cancel' (by omega), List.getElem?_take_of_lt (by omega),
      List.getElem?_eq_getElem hlt]
  have hnot := r.getElem?_start hj (List.getElem?_eq_getElem hlt)
  rw [r.all _ hmem] at hnot
  contradiction

end Run

/-! ## The loops -/

theorem runEnd_eq (p : Char → Bool) (s : Text) (stop : Nat)
    : runEnd p s stop = stop + (s.takeWhile p).length := by
  induction s generalizing stop with
  | nil => rfl
  | cons c s ih =>
    rw [runEnd]
    split
    . next hc =>
        rw [ih, List.takeWhile_cons_of_pos hc, List.length_cons, Nat.add_assoc, Nat.add_comm 1]
    . next hc => rw [List.takeWhile_cons_of_neg hc]; rfl

theorem runStart_eq (h : col ≤ s.length)
    : runStart p s col = ((s.take col).rdropWhile p).length := by
  induction col with
  | zero => rfl
  | succ col ih =>
    rw [runStart, List.getElem?_eq_getElem h, Option.any_some, List.take_add_one,
      List.getElem?_eq_getElem h, Option.toList_some]
    by_cases hc : p s[col]
    . rw [if_pos hc, ih (Nat.le_of_succ_le h), List.rdropWhile_concat_pos p _ _ hc]
    . rw [if_neg hc, List.rdropWhile_concat_neg p _ _ hc, List.length_append,
        List.length_take_of_le (Nat.le_of_succ_le h)]
      rfl

theorem drop_runStart (h : col ≤ s.length)
    : (s.take col).drop (runStart p s col) = (s.take col).rtakeWhile p := by
  have hdrop : ((s.take col).rdropWhile p ++ (s.take col).rtakeWhile p).drop
        ((s.take col).rdropWhile p).length
      = (s.take col).rtakeWhile p := List.drop_left
  rwa [List.rdropWhile_append_rtakeWhile, ← runStart_eq h] at hdrop

section

variable (h : col ≤ s.length)

include h

theorem length_before
    : ((s.take col).rdropWhile p).length + ((s.take col).rtakeWhile p).length = col := by
  rw [← List.length_append, List.rdropWhile_append_rtakeWhile, List.length_take_of_le h]

theorem start_runAround : (runAround p s col).start = runStart p s col := (runStart_eq h).symm

theorem stop_runAround : (runAround p s col).stop = runEnd p (s.drop col) col := by
  rw [runEnd_eq, Run.stop, runAround, List.length_append, ← Nat.add_assoc, length_before h]

theorem start_runAround_le : (runAround p s col).start ≤ col := by
  have hlength : ((s.take col).rdropWhile p).length + ((s.take col).rtakeWhile p).length = col :=
    length_before h
  exact Nat.le_of_add_right_le (Nat.le_of_eq hlength)

end

theorem lt_stop_runAround (h : s[col]?.any p = true) : col < (runAround p s col).stop := by
  obtain ⟨c, hc, hp⟩ := (Option.any_eq_true _ _).mp h
  obtain ⟨hlt, rfl⟩ := List.getElem?_eq_some_iff.mp hc
  rw [stop_runAround (Nat.le_of_lt hlt), runEnd_eq, List.drop_eq_getElem_cons hlt,
    List.takeWhile_cons_of_pos hp, List.length_cons]
  omega

end Text
