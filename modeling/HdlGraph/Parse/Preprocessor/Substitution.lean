import HdlGraph.Library.Words
import HdlGraph.Parse.Preprocessor.SvMacro

/-!
This module contains when the substitution of macro arguments, which replaces one formal parameter
after the other, gives what replacing them all at once gives.
-/

namespace HdlGraph
namespace SvPreprocessor

open Text Words
open scoped List

def IsWord (w : Text) : Prop := w ≠ [] ∧ ∀ c ∈ w, isWordChar c

instance (w : Text) : Decidable (IsWord w) := inferInstanceAs (Decidable (_ ∧ _))

-- The value of a formal parameter: the actual argument, else its default, else nothing
def formalValue? (params : List Text) (defaults : Dict Text Text) (actualArgs : List Text)
    (w : Text) : Option Text :=
  (params.findIdx? (· = w)).map fun idx => actualArgs[idx]?.getD (defaults.getD w [])

def substituteAtOnce (body : Text) (params : List Text) (defaults : Dict Text Text)
    (actualArgs : List Text) : Text :=
  mapWords isWordChar (fun w => (formalValue? params defaults actualArgs w).getD w) body

-- Following the values of ever later formals, each a single word, the word becomes `t`
def LeadsTo (value : Text → Text) : List Text → Text → Text → Prop
  | [], w, t => w = t
  | q :: later, w, t =>
    if w = q then IsWord (value q) ∧ LeadsTo value later (value q) t else LeadsTo value later w t

/--
In every order that begins with the longest formals: for a formal that occurs in the body, the words
of its value that are formals behind it lead back to themselves.
-/
def Settled (body : Text) (params : List Text) (defaults : Dict Text Text) (actualArgs : List Text)
    : Prop :=
  let value := fun w => (formalValue? params defaults actualArgs w).getD w
  ∀ before p after, before ++ p :: after ~ params →
    (before ++ p :: after).Pairwise (fun q q' => byteLen q' ≤ byteLen q) →
    p ∈ words isWordChar body → ∀ w ∈ words isWordChar (value p), LeadsTo value after w w

/-! ## One formal -/

section

variable {pat new : Text}

variable (pat new) in
theorem go_skip (x s : Text) (prev : Option Char)
    : ∃ prev', replaceWholeWord.go pat new x.length prev (x ++ s)
        = replaceWholeWord.go pat new 0 prev' s := by
  induction x generalizing prev with
  | nil => exact ⟨prev, rfl⟩
  | cons c cs ih => exact ih (some c)

variable (pat new) in
theorem go_inside {w : Text} (hw : ∀ c ∈ w, isWordChar c) (d : Char) (hd : isWordChar d) (s : Text)
    : ∃ prev', replaceWholeWord.go pat new 0 (some d) (w ++ s)
        = w ++ replaceWholeWord.go pat new 0 prev' s := by
  induction w generalizing d with
  | nil => exact ⟨some d, rfl⟩
  | cons c cs ih =>
    obtain ⟨prev', hrest⟩ :=
      ih (fun c' hc' => hw c' (List.mem_cons_of_mem c hc')) c (hw c List.mem_cons_self)
    refine ⟨prev', ?_⟩
    rw [List.cons_append, replaceWholeWord.go, if_neg (by simp [hd]), hrest, List.cons_append]

theorem eq_of_prefix_of_boundary (hpat : IsWord pat) {w s : Text} (hw : ∀ c ∈ w, isWordChar c)
    (hs : s.head?.any isWordChar = false) (hpre : pat <+: w ++ s)
    (hafter : ((w ++ s).drop pat.length).head?.any isWordChar = false)
    : pat = w := by
  obtain ⟨rest, hrest⟩ := hpre
  rw [← hrest, List.drop_left] at hafter
  obtain ⟨more, hmore⟩ | ⟨more, hmore⟩ := List.append_eq_append_iff.mp hrest
  . obtain ⟨rfl, hs'⟩ := hmore
    cases more with
    | nil => simp
    | cons c cs =>
      subst hs'
      have := hw c (by simp)
      simp [this] at hafter
  . obtain ⟨rfl, rfl⟩ := hmore
    cases more with
    | nil => simp
    | cons c cs =>
      have := hpat.2 c (by simp)
      simp [this] at hs

variable (new) in
theorem go_word (hpat : IsWord pat) {w s : Text} (hw : ∀ c ∈ w, isWordChar c)
    (hs : s.head?.any isWordChar = false) {prev : Option Char} (hprev : prev.any isWordChar = false)
    : ∃ prev', replaceWholeWord.go pat new 0 prev (w ++ s)
        = (if w = pat then new else w) ++ replaceWholeWord.go pat new 0 prev' s := by
  cases w with
  | nil =>
    rw [if_neg (Ne.symm hpat.1)]
    exact ⟨prev, rfl⟩
  | cons c cs =>
    rw [List.cons_append, replaceWholeWord.go]
    by_cases heq : c :: cs = pat
    . obtain ⟨prev', hskip⟩ := go_skip pat new cs s (some c)
      refine ⟨prev', ?_⟩
      have hlength : pat.length - 1 = cs.length := by simp [← heq]
      have hpre : startsWith (c :: (cs ++ s)) pat = true := by
        rw [startsWith, List.isPrefixOf_iff_prefix, ← heq]
        exact List.prefix_append (c :: cs) s
      have hafter : ((c :: (cs ++ s)).drop pat.length).head?.any isWordChar = false := by
        have hdrop : (c :: (cs ++ s)).drop pat.length = s := by
          rw [← heq]
          exact List.drop_left
        rw [hdrop, hs]
      rw [if_pos (by simp only [hpre, hprev, hafter]; rfl), if_pos heq, hlength, hskip]
    . have hno : ¬(startsWith (c :: (cs ++ s)) pat && !prev.any isWordChar
          && !((c :: (cs ++ s)).drop pat.length).head?.any isWordChar) = true := by
        simp only [Bool.and_eq_true, Bool.not_eq_true']
        rintro ⟨⟨hpre, _⟩, hafter⟩
        rw [startsWith, List.isPrefixOf_iff_prefix] at hpre
        exact heq (eq_of_prefix_of_boundary hpat hw hs hpre hafter).symm
      obtain ⟨prev', hinside⟩ :=
        go_inside pat new (fun c' hc' => hw c' (List.mem_cons_of_mem c hc')) c
        (hw c List.mem_cons_self) s
      refine ⟨prev', ?_⟩
      rw [if_neg hno, hinside, if_neg heq, List.cons_append]

theorem replaceWholeWord_eq (hpat : IsWord pat) (s new : Text)
    : replaceWholeWord s pat new = mapWords isWordChar (fun w => if w = pat then new else w) s := by
  have hgo : ∀ prev : Option Char, prev.any isWordChar = false →
      replaceWholeWord.go pat new 0 prev s
        = mapWords isWordChar (fun w => if w = pat then new else w) s := by
    induction s using word_induction isWordChar with
    | word w hw =>
      intro prev hprev
      obtain ⟨prev', hword⟩ := go_word new hpat hw (s := []) rfl hprev
      rw [List.append_nil] at hword
      rw [hword, mapWords_of_word hw, replaceWholeWord.go, List.append_nil]
    | append w c s hw hc ih =>
      intro prev hprev
      obtain ⟨prev', hword⟩ := go_word new hpat hw (s := c :: s) (by simp [hc]) hprev
      have hno : startsWith (c :: s) pat = false := by
        rw [Bool.eq_false_iff, ne_eq, startsWith, List.isPrefixOf_iff_prefix]
        intro hpre
        cases pat with
        | nil => exact hpat.1 rfl
        | cons d ds =>
          have := hpat.2 d List.mem_cons_self
          rw [(List.cons_prefix_cons.mp hpre).1, hc] at this
          contradiction
      rw [hword, mapWords_append hc, mapWords_of_word hw, replaceWholeWord.go, hno]
      simp only [Bool.false_and, Bool.false_eq_true, if_false]
      rw [ih (some c) (by simp [hc])]
  rw [replaceWholeWord, if_neg hpat.1]
  exact hgo none rfl

end

/-! ## One formal after the other -/

def substituteEach (value : Text → Text) (formals : List Text) (s : Text) : Text :=
  formals.foldl (fun result q => replaceWholeWord result q (value q)) s

section

variable {value : Text → Text} {formals : List Text}

theorem substituteEach_cons (q : Text) (later : List Text) (s : Text)
    : substituteEach value (q :: later) s
        = substituteEach value later (replaceWholeWord s q (value q)) := rfl

theorem substituteEach_append (before after : List Text) (s : Text)
    : substituteEach value (before ++ after) s
        = substituteEach value after (substituteEach value before s) :=
  List.foldl_append

theorem substituteEach_eq_mapWords (hwords : ∀ q ∈ formals, IsWord q) (s : Text)
    : substituteEach value formals s = mapWords isWordChar (substituteEach value formals) s := by
  induction formals generalizing s with
  | nil => exact (mapWords_id s).symm
  | cons q later ih =>
    have hq := hwords q List.mem_cons_self
    have ih := ih fun q' hq' => hwords q' (List.mem_cons_of_mem q hq')
    rw [substituteEach_cons, replaceWholeWord_eq hq, ih, mapWords_mapWords]
    apply mapWords_congr
    intro w hw
    rw [← ih, substituteEach_cons, replaceWholeWord_eq hq,
      mapWords_of_word (isWord_of_mem_words hw)]

theorem leadsTo_self_of_notMem {w : Text} (hw : w ∉ formals) : LeadsTo value formals w w := by
  induction formals with
  | nil => rfl
  | cons q later ih =>
    rw [LeadsTo, if_neg (List.ne_of_not_mem_cons hw)]
    exact ih (List.not_mem_of_not_mem_cons hw)

theorem separators_le_substituteEach (hwords : ∀ q ∈ formals, IsWord q) (s : Text)
    : separators isWordChar s ≤ separators isWordChar (substituteEach value formals s) := by
  rw [substituteEach_eq_mapWords hwords]
  apply separators_le_mapWords

theorem substituteEach_nil (hwords : ∀ q ∈ formals, IsWord q)
    : substituteEach value formals [] = [] := by
  induction formals with
  | nil => rfl
  | cons q later ih =>
    rw [substituteEach_cons, replaceWholeWord_eq (hwords q List.mem_cons_self),
      mapWords_of_word (by simp), if_neg (Ne.symm (hwords q List.mem_cons_self).1)]
    exact ih fun q' hq' => hwords q' (List.mem_cons_of_mem q hq')

theorem substituteEach_of_notMem (hwords : ∀ q ∈ formals, IsWord q) {w : Text}
    (hw : ∀ c ∈ w, isWordChar c) (hnot : w ∉ formals)
    : substituteEach value formals w = w := by
  induction formals with
  | nil => rfl
  | cons q later ih =>
    rw [substituteEach_cons, replaceWholeWord_eq (hwords q List.mem_cons_self), mapWords_of_word hw,
      if_neg (List.ne_of_not_mem_cons hnot)]
    exact ih (fun q' hq' => hwords q' (List.mem_cons_of_mem q hq'))
      (List.not_mem_of_not_mem_cons hnot)

theorem substituteEach_eq_word_iff (hwords : ∀ q ∈ formals, IsWord q) {w t : Text}
    (hw : ∀ c ∈ w, isWordChar c) (ht : IsWord t)
    : substituteEach value formals w = t ↔ LeadsTo value formals w t := by
  induction formals generalizing w with
  | nil => exact Iff.rfl
  | cons q later ih =>
    have hlater : ∀ q' ∈ later, IsWord q' := fun q' hq' => hwords q' (List.mem_cons_of_mem q hq')
    rw [substituteEach_cons, replaceWholeWord_eq (hwords q List.mem_cons_self),
      mapWords_of_word hw, LeadsTo]
    split
    . constructor
      . intro heq
        have hvalue : IsWord (value q) := by
          constructor
          . intro hnil
            rw [hnil, substituteEach_nil hlater] at heq
            exact ht.1 heq.symm
          . have hle : separators isWordChar (value q)
                ≤ separators isWordChar (substituteEach value later (value q)) :=
              separators_le_substituteEach hlater (value q)
            rw [heq, separators_eq_zero.mpr ht.2] at hle
            exact separators_eq_zero.mp (Nat.le_zero.mp hle)
        exact ⟨hvalue, (ih hlater hvalue.2).mp heq⟩
      . rintro ⟨hvalue, hleads⟩
        exact (ih hlater hvalue.2).mpr hleads
    . exact ih hlater hw

theorem substituteEach_eq_self_iff (hwords : ∀ q ∈ formals, IsWord q) (s : Text)
    : substituteEach value formals s = s ↔ ∀ w ∈ words isWordChar s, LeadsTo value formals w w := by
  rw [substituteEach_eq_mapWords hwords, mapWords_eq_self_iff]
  apply forall₂_congr
  intro w hw
  have hword := isWord_of_mem_words hw
  cases w with
  | nil =>
    exact iff_of_true (substituteEach_nil hwords)
      (leadsTo_self_of_notMem fun hmem => (hwords [] hmem).1 rfl)
  | cons c cs => exact substituteEach_eq_word_iff hwords hword ⟨List.cons_ne_nil c cs, hword⟩

theorem substituteEach_formal (hwords : ∀ q ∈ formals, IsWord q) (hnodup : formals.Nodup)
    {before after : List Text} {p : Text} (hsplit : formals = before ++ p :: after)
    : substituteEach value formals p = substituteEach value after (value p) := by
  subst hsplit
  have hp := hwords p (by simp)
  rw [List.nodup_append] at hnodup
  rw [substituteEach_append, substituteEach_cons,
    substituteEach_of_notMem (fun q hq => hwords q (by simp [hq])) hp.2 fun hmem =>
      hnodup.2.2 p hmem p List.mem_cons_self rfl,
    replaceWholeWord_eq hp, mapWords_of_word hp.2, if_pos rfl]

theorem substituteEach_eq_iff (hwords : ∀ q ∈ formals, IsWord q) (hnodup : formals.Nodup)
    (hvalue : ∀ w, w ∉ formals → value w = w) (body : Text)
    : substituteEach value formals body = mapWords isWordChar value body
        ↔
      ∀ before p after, formals = before ++ p :: after → p ∈ words isWordChar body →
        ∀ w ∈ words isWordChar (value p), LeadsTo value after w w := by
  have hle : ∀ w ∈ words isWordChar body,
      separators isWordChar (value w) ≤ separators isWordChar (substituteEach value formals w) := by
    intro w hw
    by_cases hformal : w ∈ formals
    . obtain ⟨before, after, hsplit⟩ := List.append_of_mem hformal
      rw [substituteEach_formal hwords hnodup hsplit]
      exact separators_le_substituteEach (fun q hq => hwords q (by simp [hsplit, hq])) (value w)
    . rw [substituteEach_of_notMem hwords (isWord_of_mem_words hw) hformal, hvalue w hformal]
  rw [substituteEach_eq_mapWords hwords, mapWords_eq_iff hle]
  constructor
  . intro h before p after hsplit hp
    have heq := h p hp
    rw [substituteEach_formal hwords hnodup hsplit] at heq
    exact (substituteEach_eq_self_iff (fun q hq => hwords q (by simp [hsplit, hq])) (value p)).mp
      heq
  . intro h w hw
    by_cases hformal : w ∈ formals
    . obtain ⟨before, after, hsplit⟩ := List.append_of_mem hformal
      rw [substituteEach_formal hwords hnodup hsplit]
      exact (substituteEach_eq_self_iff (fun q hq => hwords q (by simp [hsplit, hq])) (value w)).mpr
        (h before w after hsplit hw)
    . rw [substituteEach_of_notMem hwords (isWord_of_mem_words hw) hformal, hvalue w hformal]

end

/-! ## The substitution map -/

section

variable {params : List Text} {defaults : Dict Text Text} {actualArgs : List Text}

theorem get?_foldl_zipIdx (hnodup : params.Nodup) (k : Nat) (subs : Dict Text Text) (w : Text)
    : ((params.zipIdx k).foldl
        (fun subs (paramName, idx) =>
          subs.insert paramName (actualArgs[idx]?.getD (defaults.getD paramName []))) subs).get? w
        =
      match params.findIdx? (· = w) with
      | some idx => some (actualArgs[k + idx]?.getD (defaults.getD w []))
      | none => subs.get? w := by
  induction params generalizing k subs with
  | nil => rfl
  | cons p rest ih =>
    have hrest := List.nodup_cons.mp hnodup
    rw [List.zipIdx_cons, List.foldl_cons, ih hrest.2, List.findIdx?_cons]
    by_cases hp : p = w
    . have hnone : rest.findIdx? (· = w) = none := by
        rw [List.findIdx?_eq_none_iff]
        intro x hx
        rw [decide_eq_false_iff_not]
        rintro rfl
        exact hrest.1 (hp ▸ hx)
      simp [hp, hnone]
    . cases hfind : rest.findIdx? (· = w) with
      | none => simp [hp, Dict.get?_insert_of_ne _ _ (Ne.symm hp)]
      | some idx => simp [hp, Nat.add_assoc, Nat.add_comm 1]

theorem get?_substitutions (hnodup : params.Nodup) (w : Text)
    : (substitutions params defaults actualArgs).get? w
        = formalValue? params defaults actualArgs w := by
  unfold substitutions formalValue?
  rw [get?_foldl_zipIdx hnodup]
  cases params.findIdx? (· = w) <;> simp

variable (defaults actualArgs) in
theorem formalValue?_isSome_iff {w : Text}
    : (formalValue? params defaults actualArgs w).isSome ↔ w ∈ params := by
  simp [formalValue?, List.findIdx?_isSome]

theorem formalValue?_getD_of_notMem {w : Text} (hw : w ∉ params)
    : (formalValue? params defaults actualArgs w).getD w = w := by
  have hnone : formalValue? params defaults actualArgs w = none := by
    rw [← Option.not_isSome_iff_eq_none, formalValue?_isSome_iff]
    exact hw
  rw [hnone, Option.getD_none]

theorem pairwise_insertionSort_byteLen (formals : List Text)
    : (formals.insertionSort fun p q => byteLen q ≤ byteLen p).Pairwise fun p q =>
        byteLen q ≤ byteLen p := by
  have : Std.Total fun p q : Text => byteLen q ≤ byteLen p := ⟨fun p q => Nat.le_total _ _⟩
  have : IsTrans Text fun p q => byteLen q ≤ byteLen p :=
    ⟨fun p q r hpq hqr => Nat.le_trans hqr hpq⟩
  exact List.pairwise_insertionSort _ _

theorem perm_keys_substitutions (hnodup : params.Nodup)
    : (substitutions params defaults actualArgs).keys ~ params := by
  rw [List.perm_ext_iff_of_nodup (Dict.keys_nodup _) hnodup]
  intro w
  rw [Dict.mem_keys_iff, get?_substitutions hnodup, ← Option.isSome_iff_exists,
    formalValue?_isSome_iff]

theorem substituteMacroBody_eq (order : Dict Text Text → List Text) (hnodup : params.Nodup)
    (horder : order (substitutions params defaults actualArgs) ~ params) (body : Text)
    : substituteMacroBody order body params defaults actualArgs
        =
      substituteEach (fun w => (formalValue? params defaults actualArgs w).getD w)
        ((order (substitutions params defaults actualArgs)).insertionSort fun p q =>
          byteLen q ≤ byteLen p) body := by
  unfold substituteMacroBody substituteEach
  apply List.foldl_ext
  intro result q hq
  rw [List.mem_insertionSort, horder.mem_iff] at hq
  rw [Dict.getD, get?_substitutions hnodup]
  obtain ⟨v, hv⟩ :=
    Option.isSome_iff_exists.mp ((formalValue?_isSome_iff defaults actualArgs).mpr hq)
  simp only [hv, Option.getD_some]

end

/--
Whatever order the hash map yields, the substitution is simultaneous, exactly if no value of a
formal that the body uses is changed by the formals behind it.
-/
theorem substituteMacroBody_eq_atOnce_iff (body : Text) (params : List Text)
    (defaults : Dict Text Text) (actualArgs : List Text) (hwords : ∀ p ∈ params, IsWord p)
    (hnodup : params.Nodup)
    : (∀ order, (∀ subs : Dict Text Text, order subs ~ subs.keys) →
          substituteMacroBody order body params defaults actualArgs
            = substituteAtOnce body params defaults actualArgs)
        ↔
      Settled body params defaults actualArgs := by
  have hsorted {formals : List Text} (hperm : formals ~ params)
      : substituteEach (fun w => (formalValue? params defaults actualArgs w).getD w) formals body
          = substituteAtOnce body params defaults actualArgs
        ↔ ∀ before p after, formals = before ++ p :: after → p ∈ words isWordChar body →
          ∀ w ∈ words isWordChar ((formalValue? params defaults actualArgs p).getD p),
            LeadsTo (fun w => (formalValue? params defaults actualArgs w).getD w) after w w :=
    substituteEach_eq_iff (fun q hq => hwords q (hperm.mem_iff.mp hq)) (hperm.nodup_iff.mpr hnodup)
      (fun w hw => formalValue?_getD_of_notMem fun hmem => hw (hperm.mem_iff.mpr hmem)) body
  constructor
  . intro h before p after hperm hpairwise
    classical
    -- The hash map may yield the formals in this very order
    let order : Dict Text Text → List Text := fun subs =>
      if subs = substitutions params defaults actualArgs then before ++ p :: after else subs.keys
    have horder : ∀ subs : Dict Text Text, order subs ~ subs.keys := by
      intro subs
      dsimp only [order]
      split
      . next heq =>
        rw [heq]
        exact hperm.trans (perm_keys_substitutions hnodup).symm
      . exact .refl _
    have hyields : order (substitutions params defaults actualArgs) = before ++ p :: after :=
      if_pos rfl
    have heq := h order horder
    rw [substituteMacroBody_eq order hnodup (by rw [hyields]; exact hperm), hyields,
      hpairwise.insertionSort_eq, hsorted hperm] at heq
    exact heq before p after rfl
  . intro h order horder
    have hperm :=
      (horder (substitutions params defaults actualArgs)).trans (perm_keys_substitutions hnodup)
    have hsort := List.perm_insertionSort (fun p q => byteLen q ≤ byteLen p)
      (order (substitutions params defaults actualArgs))
    rw [substituteMacroBody_eq order hnodup hperm, hsorted (hsort.trans hperm)]
    intro before p after hsplit
    apply h
    . rw [← hsplit]
      exact hsort.trans hperm
    . rw [← hsplit]
      exact pairwise_insertionSort_byteLen _

theorem settled_of_apart {body : Text} {params : List Text} {defaults : Dict Text Text}
    {actualArgs : List Text} (hnodup : params.Nodup)
    (h : ∀ p ∈ params, p ∈ words isWordChar body →
      ∀ w ∈ words isWordChar ((formalValue? params defaults actualArgs p).getD p),
        ∀ q ∈ params, w = q → q = p)
    : Settled body params defaults actualArgs := by
  intro before p after hperm _ hp w hw
  apply leadsTo_self_of_notMem
  intro hafter
  have hmem : ∀ q ∈ p :: after, q ∈ params :=
    fun q hq => hperm.mem_iff.mp (List.mem_append_right before hq)
  have hsame :=
    h p (hmem p List.mem_cons_self) hp w hw w (hmem w (List.mem_cons_of_mem p hafter)) rfl
  have hnodup' := (List.nodup_append.mp (hperm.nodup_iff.mpr hnodup)).2.1
  exact (List.nodup_cons.mp hnodup').1 (hsame ▸ hafter)

theorem substituteMacroBody_eq_atOnce_display
    : substituteMacroBody Dict.keys "initial $display(x, y);".toList ["x".toList, "y".toList]
        Dict.empty ["\"x\"".toList, "1".toList]
      = "initial $display(\"x\", 1);".toList := by
  have hsettled : Settled "initial $display(x, y);".toList ["x".toList, "y".toList] Dict.empty
      ["\"x\"".toList, "1".toList] :=
    settled_of_apart (by decide) (by decide)
  rw [(substituteMacroBody_eq_atOnce_iff _ _ _ _ (by decide) (by decide)).mpr hsettled Dict.keys
    fun _ => .refl _]
  decide

-- The actual argument of the longer formal mentions the shorter one
theorem substituteMacroBody_rewrites_actual
    : substituteMacroBody Dict.keys "val + x".toList ["val".toList, "x".toList] Dict.empty
          ["x".toList, "1".toList]
        = "1 + 1".toList
      ∧ substituteAtOnce "val + x".toList ["val".toList, "x".toList] Dict.empty
          ["x".toList, "1".toList]
        = "x + 1".toList
      ∧ ¬∀ order, (∀ subs : Dict Text Text, order subs ~ subs.keys) →
          substituteMacroBody order "val + x".toList ["val".toList, "x".toList] Dict.empty
              ["x".toList, "1".toList]
            = substituteAtOnce "val + x".toList ["val".toList, "x".toList] Dict.empty
                ["x".toList, "1".toList] := by
  refine ⟨by decide, by decide, ?_⟩
  intro h
  exact absurd (h Dict.keys fun _ => .refl _) (by decide)

end SvPreprocessor
end HdlGraph
