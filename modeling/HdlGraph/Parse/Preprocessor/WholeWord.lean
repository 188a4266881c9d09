import HdlGraph.Library.Walk
import HdlGraph.Parse.Preprocessor.Substitution

/-!
This module contains the loop that replaces a word in a text, and that it ends with the text in
which exactly the runs of word characters that are this word are replaced.
-/

namespace HdlGraph
namespace SvPreprocessor

open Text Walk Words

structure ReplaceLoop where
  i : Nat
  result : Text
  deriving DecidableEq, Repr

def replaceStep (s pat new : Text) (st : ReplaceLoop) : Text ⊕ ReplaceLoop :=
  if st.i ≤ s.length then
    let beforeOk := st.i = 0 || !s[st.i - 1]?.any isWordChar
    let afterOk := st.i + pat.length ≥ s.length || !s[st.i + pat.length]?.any isWordChar
    if st.i + pat.length ≤ s.length && (s.drop st.i).take pat.length
      = pat && beforeOk && afterOk then
      .inr ⟨st.i + pat.length, st.result ++ new⟩
    else
      .inr ⟨st.i + 1, st.result ++ s[st.i]?.toList⟩
  else
    .inl st.result

-- `replace_whole_word` with its loop; `replaceWholeWord` is what it gives
def replaceWholeWordLoop (fuel : Nat) (s pat new : Text) : Option Text :=
  if pat.isEmpty then some s else climb (replaceStep s pat new) fuel ⟨0, []⟩

section

variable {s pat new : Text}

def charBefore (s : Text) (i : Nat) : Option Char := if i = 0 then none else s[i - 1]?

theorem charBefore_succ (s : Text) (i : Nat) : charBefore s (i + 1) = s[i]? := rfl

def restFrom (s pat new : Text) (i : Nat) : Text :=
  replaceWholeWord.go pat new 0 (charBefore s i) (s.drop i)

theorem go_drop {skip i : Nat} (h : i + skip ≤ s.length)
    : replaceWholeWord.go pat new skip (charBefore s i) (s.drop i)
        = restFrom s pat new (i + skip) := by
  induction skip generalizing i with
  | zero => rfl
  | succ skip ih =>
    have hi : i < s.length := by omega
    rw [List.drop_eq_getElem_cons hi, replaceWholeWord.go, ← List.getElem?_eq_getElem hi,
      ← charBefore_succ, ih (by omega)]
    congr 1
    omega

theorem beforeOk_eq (s : Text) (i : Nat)
    : (i = 0 || !s[i - 1]?.any isWordChar) = !(charBefore s i).any isWordChar := by
  by_cases hi : i = 0 <;> simp [charBefore, hi]

theorem afterOk_eq (s : Text) (i n : Nat)
    : (i + n ≥ s.length || !s[i + n]?.any isWordChar)
        = !((s.drop i).drop n).head?.any isWordChar := by
  rw [List.drop_drop, List.head?_drop]
  by_cases hle : s.length ≤ i + n <;> simp [hle]

theorem startsHere_eq {i : Nat} (hi : i ≤ s.length)
    : (i + pat.length ≤ s.length && (s.drop i).take pat.length = pat)
        = startsWith (s.drop i) pat := by
  rw [Bool.eq_iff_iff, Bool.and_eq_true, decide_eq_true_eq, decide_eq_true_eq, startsWith,
    List.isPrefixOf_iff_prefix, List.prefix_iff_eq_take]
  constructor
  . exact fun h => h.2.symm
  . intro h
    have hlength := congrArg List.length h
    rw [List.length_take, List.length_drop] at hlength
    exact ⟨by omega, h.symm⟩

theorem replaceStep_next (hpat : pat ≠ []) {st st' : ReplaceLoop}
    (h : replaceStep s pat new st = .inr st')
    : st.i < st'.i ∧ st.i ≤ s.length
        ∧ st'.result ++ restFrom s pat new st'.i = st.result ++ restFrom s pat new st.i := by
  have hlength : 0 < pat.length := List.length_pos_iff.mpr hpat
  unfold replaceStep at h
  split at h
  . next hi =>
    simp only [beforeOk_eq, afterOk_eq, startsHere_eq hi] at h
    cases hrest : s.drop st.i with
    | nil =>
      have hend := List.drop_eq_nil_iff.mp hrest
      have hno : startsWith [] pat = false := by
        rw [Bool.eq_false_iff, ne_eq, startsWith, List.isPrefixOf_iff_prefix, List.prefix_nil]
        exact hpat
      rw [hrest, hno] at h
      simp only [Bool.false_and, Bool.false_eq_true, if_false, List.getElem?_eq_none hend,
        Option.toList_none, List.append_nil] at h
      obtain rfl := Sum.inr.inj h
      refine ⟨Nat.lt_succ_self _, hi, ?_⟩
      rw [restFrom, restFrom, hrest, List.drop_eq_nil_of_le (show s.length ≤ st.i + 1 by omega)]
      rfl
    | cons c cs =>
      have hlt : st.i < s.length := by
        by_contra hge
        rw [List.drop_eq_nil_of_le (by omega)] at hrest
        contradiction
      have hcs : s.drop (st.i + 1) = cs := by
        rw [← List.tail_drop, hrest]
        rfl
      have hc : s[st.i]? = some c := by
        rw [← List.head?_drop, hrest]
        rfl
      rw [hrest] at h
      split at h
      . next hmatch =>
        obtain rfl := Sum.inr.inj h
        refine ⟨by dsimp; omega, hi, ?_⟩
        have hfits : st.i + pat.length ≤ s.length := by
          have hstarts := (Bool.and_eq_true_iff.mp (Bool.and_eq_true_iff.mp hmatch).1).1
          rw [← hrest, ← startsHere_eq hi, Bool.and_eq_true, decide_eq_true_eq] at hstarts
          exact hstarts.1
        have hskip : replaceWholeWord.go pat new (pat.length - 1) (charBefore s (st.i + 1))
              (s.drop (st.i + 1))
            = restFrom s pat new (st.i + 1 + (pat.length - 1)) := go_drop (by omega)
        rw [charBefore_succ, hc, hcs, show st.i + 1 + (pat.length - 1) = st.i + pat.length by omega]
          at hskip
        rw [restFrom.eq_def s pat new st.i, hrest, replaceWholeWord.go, if_pos hmatch, hskip,
          List.append_assoc]
      . next hmatch =>
        obtain rfl := Sum.inr.inj h
        refine ⟨Nat.lt_succ_self _, hi, ?_⟩
        rw [restFrom.eq_def s pat new st.i, hrest, replaceWholeWord.go, if_neg hmatch, restFrom,
          charBefore_succ, hc, hcs]
        simp
  . contradiction

theorem replaceStep_stop {st : ReplaceLoop} {result : Text}
    (h : replaceStep s pat new st = .inl result)
    : result = st.result ++ restFrom s pat new st.i := by
  unfold replaceStep at h
  split at h
  . dsimp at h
    split at h <;> contradiction
  . next hi =>
    rw [restFrom, List.drop_eq_nil_of_le (by omega), replaceWholeWord.go, List.append_nil]
    exact (Sum.inl.inj h).symm

theorem replaceWholeWordLoop_eq (s pat new : Text) {fuel : Nat} (hfuel : s.length + 1 < fuel)
    : replaceWholeWordLoop fuel s pat new = some (replaceWholeWord s pat new) := by
  unfold replaceWholeWordLoop
  by_cases hpat : pat = []
  . simp [hpat, replaceWholeWord]
  . rw [if_neg (by simpa using hpat)]
    have hsome : (climb (replaceStep s pat new) fuel ⟨0, []⟩).isSome := by
      apply climb_isSome_of_rank (P := fun _ => True) (fun st => s.length + 1 - st.i)
        ?_ trivial hfuel
      intro st st' _ hstep
      obtain ⟨hlt, hle, _⟩ := replaceStep_next hpat hstep
      exact ⟨trivial, by omega⟩
    obtain ⟨result, hresult⟩ := Option.isSome_iff_exists.mp hsome
    have hpass : result = restFrom s pat new 0 := by
      apply climb_induction
        (P := fun st => st.result ++ restFrom s pat new st.i = restFrom s pat new 0)
        (Q := fun result => result = restFrom s pat new 0) ?_ ?_ rfl hresult
      . intro st st' hst hstep
        exact (replaceStep_next hpat hstep).2.2.trans hst
      . intro st result hst hstep
        exact (replaceStep_stop hstep).trans hst
    rw [hresult, hpass, replaceWholeWord, if_neg hpat]
    rfl

end

/--
The loop ends, and what it gives is the text with each run of word characters that is the word
replaced.
-/
theorem replaceWholeWordLoop_exact (s : Text) {pat : Text} (hpat : IsWord pat) (new : Text)
    {fuel : Nat} (hfuel : s.length + 1 < fuel)
    : replaceWholeWordLoop fuel s pat new
        = some (mapWords isWordChar (fun w => if w = pat then new else w) s) := by
  rw [replaceWholeWordLoop_eq s pat new hfuel, replaceWholeWord_eq hpat]

theorem replaceWholeWordLoop_exact_adjacent
    : replaceWholeWordLoop 20 "a a+ab_a-a".toList "a".toList "a b".toList
        = some (mapWords isWordChar (fun w => if w = "a".toList then "a b".toList else w)
            "a a+ab_a-a".toList) :=
  replaceWholeWordLoop_exact _ (by decide) _ (by decide)

end SvPreprocessor
end HdlGraph
