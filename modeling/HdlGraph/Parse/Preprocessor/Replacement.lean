import HdlGraph.Parse.Preprocessor.Pass1Standard

/-!
This module contains the lines that pass 1 does not take for a directive: the text they are emitted
as, and where this is the line with the macro at its start replaced.
-/

namespace HdlGraph
namespace Pass1Standard

open Text Conditional

variable {defines : Dict Text Text} {line : Text}

def IsCode (line : Text) : Prop :=
  kind line = .plain ∧ startsWith (trim line) "`define ".toList = false
    ∧ startsWith (trim line) "`undef ".toList = false
      ∧ startsWith (trim line) "`include ".toList = false

instance (line : Text) : Decidable (IsCode line) :=
  inferInstanceAs (Decidable (_ ∧ _ ∧ _ ∧ _))

def firstWord (trimmed : Text) : Text :=
  ((trimStartChar '`' trimmed).dropWhile isWhitespace).takeWhile (!isWhitespace ·)

def replaced (defines : Dict Text Text) (line : Text) : Text :=
  if startsWith (trim line) "`".toList && !startsWith (trim line) "``".toList then
    match defines.get? (firstWord (trim line)) with
    | some value => line.takeWhile isWhitespace ++ value
    | none => line
  else
    line

theorem keepLine_of_isCode (h : IsCode line) (st : State)
    : keepLine st line = st.pushLine (replaced st.defines line) := by
  obtain ⟨_, hdefine, hundef, hinclude⟩ := h
  unfold keepLine replaced firstWord
  simp only [hdefine, hundef, hinclude, Bool.false_eq_true, if_false]
  split
  . split <;> simp_all
  . rfl

theorem step_of_isCode (h : IsCode line) (below : List Bool) (st : State)
    : step (true :: below) st line = (true :: below, st.pushLine (replaced st.defines line)) := by
  rw [step_eq, h.1]
  simp only [if_true]
  rw [keepLine_of_isCode h]

theorem runLines_of_isCode {ls : List Text} (h : ∀ line ∈ ls, IsCode line) (post : List Text)
    (below : List Bool) (st : State)
    : runLines (ls ++ post) (true :: below) st
        = runLines post (true :: below)
            { st with
              result := st.result
                ++ (ls.map fun line => replaced st.defines line ++ ['\n']).flatten } := by
  induction ls generalizing st with
  | nil => simp
  | cons line rest ih =>
    rw [List.cons_append, runLines, step_of_isCode (h line List.mem_cons_self),
      ih fun line hline => h line (List.mem_cons_of_mem _ hline)]
    simp [State.pushLine]

/-! ## A macro at the start of a line -/

def directives : List String :=
  ["ifdef", "ifndef", "elsif", "else", "endif", "define", "undef", "include"]

section

variable {name further : Text} (htrim : trim line = '`' :: (name ++ further)) (hne : name ≠ [])
variable (hword : ∀ c ∈ name, isWordChar c) (hmax : further.head?.all (!isWordChar ·) = true)

include htrim hword hmax

theorem startsWith_keyword {keyword : Text} {c : Char} (hkeyword : ∀ d ∈ keyword, isWordChar d)
    (hc : isWordChar c = false) (h : startsWith (trim line) ('`' :: (keyword ++ [c])) = true)
    : name = keyword := by
  obtain ⟨rest, hrest⟩ := List.isPrefixOf_iff_prefix.mp h
  rw [htrim, List.cons_append, List.cons.injEq, List.append_assoc] at hrest
  have hname := (takeWhile_append_of_head hword hmax).1
  have hkey := (takeWhile_append_of_head (s := [c] ++ rest) hkeyword (by simp [hc])).1
  rw [hrest.2, hname] at hkey
  exact hkey

theorem startsWith_endif : startsWith (trim line) "`endif".toList = true
    ↔ "endif".toList <+: name := by
  have hkeyword : ∀ d ∈ "endif".toList, isWordChar d := by decide
  have hname := (takeWhile_append_of_head hword hmax).1
  unfold startsWith
  rw [List.isPrefixOf_iff_prefix, htrim, show "`endif".toList = '`' :: "endif".toList from rfl,
    List.cons_prefix_cons]
  constructor
  . rintro ⟨_, rest, hrest⟩
    rw [← hname, ← hrest, List.takeWhile_append_of_pos hkeyword]
    exact List.prefix_append _ _
  . rintro ⟨rest, hrest⟩
    exact ⟨rfl, rest ++ further, by rw [← hrest, List.append_assoc]⟩

theorem not_startsWith_keyword (hdirective : ∀ directive ∈ directives, name ≠ directive.toList)
    (directive : String) (hmem : directive ∈ directives) {c : Char} (hc : isWordChar c = false)
    : startsWith (trim line) ('`' :: (directive.toList ++ [c])) = false := by
  by_contra h
  rw [Bool.not_eq_false] at h
  have hall : ∀ directive ∈ directives, ∀ d ∈ directive.toList, isWordChar d := by decide
  exact hdirective directive hmem (startsWith_keyword htrim hword hmax (hall directive hmem) hc h)

theorem kind_eq (hdirective : ∀ directive ∈ directives, name ≠ directive.toList)
    : kind line = if "endif".toList <+: name then .endif else .plain := by
  have hkeyword := not_startsWith_keyword htrim hword hmax hdirective
  have helse : trim line ≠ "`else".toList := by
    intro heq
    rw [htrim, show "`else".toList = '`' :: ("else".toList ++ []) from rfl, List.cons.injEq] at heq
    have hname := (takeWhile_append_of_head hword hmax).1
    rw [heq.2, (takeWhile_append_of_head (show ∀ d ∈ "else".toList, isWordChar d by decide) rfl).1]
      at hname
    exact hdirective "else" (by decide) hname.symm
  unfold kind
  simp only [show "`ifdef ".toList = '`' :: ("ifdef".toList ++ [' ']) from rfl,
    show "`ifndef ".toList = '`' :: ("ifndef".toList ++ [' ']) from rfl,
    show "`elsif ".toList = '`' :: ("elsif".toList ++ [' ']) from rfl,
    show "`else ".toList = '`' :: ("else".toList ++ [' ']) from rfl,
    show "`else\t".toList = '`' :: ("else".toList ++ ['\t']) from rfl,
    hkeyword "ifdef" (by decide) (show isWordChar ' ' = false by decide),
    hkeyword "ifndef" (by decide) (show isWordChar ' ' = false by decide),
    hkeyword "elsif" (by decide) (show isWordChar ' ' = false by decide),
    hkeyword "else" (by decide) (show isWordChar ' ' = false by decide),
    hkeyword "else" (by decide) (show isWordChar '\t' = false by decide),
    helse, startsWith_endif htrim hword hmax]
  rfl

theorem isCode_of_not_endif (hdirective : ∀ directive ∈ directives, name ≠ directive.toList)
    (hendif : ¬"endif".toList <+: name)
    : IsCode line := by
  have hkeyword (directive : String) (hmem : directive ∈ directives)
      : startsWith (trim line) ('`' :: (directive.toList ++ [' '])) = false :=
    not_startsWith_keyword htrim hword hmax hdirective directive hmem (by decide)
  refine ⟨?_, hkeyword "define" (by decide), hkeyword "undef" (by decide),
    hkeyword "include" (by decide)⟩
  rw [kind_eq htrim hword hmax hdirective, if_neg hendif]

end

theorem firstWord_eq {name further : Text} (hne : name ≠ []) (hword : ∀ c ∈ name, isWordChar c)
    : firstWord ('`' :: (name ++ further)) = name ++ further.takeWhile (!isWhitespace ·) := by
  have hspace : ∀ c ∈ name, (!isWhitespace c) = true := by
    intro c hc
    rw [isWhitespace_of_isWordChar (hword c hc)]
    rfl
  obtain ⟨c, cs, rfl⟩ := List.exists_cons_of_ne_nil hne
  have hbacktick : c ≠ '`' := by
    rintro rfl
    exact absurd (hword '`' List.mem_cons_self) (by decide)
  have hhead : ¬isWhitespace c = true := by simpa using hspace c List.mem_cons_self
  unfold firstWord trimStartChar
  rw [List.dropWhile_cons_of_pos (by decide), List.cons_append,
    List.dropWhile_cons_of_neg (by simpa using hbacktick), List.dropWhile_cons_of_neg hhead,
    ← List.cons_append, List.takeWhile_append_of_pos hspace]

theorem replaced_eq {name further : Text} (htrim : trim line = '`' :: (name ++ further))
    (hne : name ≠ []) (hword : ∀ c ∈ name, isWordChar c) (defines : Dict Text Text)
    : replaced defines line
        = line.takeWhile isWhitespace
          ++ (defines.get? (name ++ further.takeWhile (!isWhitespace ·))).getD
          (trimStart line) := by
  have hstart : startsWith (trim line) "`".toList = true := by
    rw [htrim]
    rfl
  have hstart' : startsWith (trim line) "``".toList = false := by
    obtain ⟨c, cs, rfl⟩ := List.exists_cons_of_ne_nil hne
    have hbacktick : '`' ≠ c := by
      rintro rfl
      exact absurd (hword '`' List.mem_cons_self) (by decide)
    rw [htrim]
    simp [startsWith, List.isPrefixOf, hbacktick]
  unfold replaced
  rw [hstart, hstart', htrim, firstWord_eq hne hword]
  cases defines.get? (name ++ further.takeWhile (!isWhitespace ·)) with
  | some value => rfl
  | none => exact List.takeWhile_append_dropWhile.symm

theorem pushLine_inj {st : State} {s t : Text} : st.pushLine s = st.pushLine t ↔ s = t := by
  constructor
  . intro h
    have hresult : st.result ++ s ++ ['\n'] = st.result ++ t ++ ['\n'] := congrArg State.result h
    exact List.append_cancel_left (List.append_cancel_right hresult)
  . rintro rfl
    rfl

theorem pushLine_ne (st : State) (s : Text) : st ≠ st.pushLine s := by
  intro h
  have hlen := congrArg (fun st => st.result.length) h
  simp [State.pushLine] at hlen

theorem trimStart_eq_append_iff {name further value : Text}
    (htrim : trim line = '`' :: (name ++ further)) (hfurther : further ≠ [])
    : trimStart line = value ++ further ↔ value = '`' :: name ∧ trimStart line = trim line := by
  constructor
  . intro h
    obtain ⟨front, c, rfl⟩ : ∃ front c, further = front ++ [c] :=
      ⟨_, _, (List.dropLast_append_getLast hfurther).symm⟩
    have hc : isWhitespace c = false := by
      apply isWhitespace_getLast_of_trim_eq (s := '`' :: (name ++ front))
      have := trim_trim line
      rw [htrim] at this
      simpa using this
    have hself : trim line = trimStart line := by
      unfold trim
      rw [h]
      apply List.rdropWhile_eq_self_iff.mpr
      intro hne
      simp [hc]
    refine ⟨?_, hself.symm⟩
    rw [← hself, htrim, ← List.cons_append] at h
    exact (List.append_cancel_right h).symm
  . rintro ⟨rfl, h⟩
    rw [h, htrim, List.cons_append]

theorem takeWhile_eq_nil_of_head? {p : Char → Bool} {s : Text} (h : ¬s.head?.all p = true)
    : s.takeWhile p = [] := by
  cases s with
  | nil => simp at h
  | cons c cs => exact List.takeWhile_cons_of_neg (by simpa using h)

/--
A line that names a macro at its start is emitted with the value in its place, and the text behind
it unchanged, exactly if nothing stands behind it, or the word it begins happens to have just this
text as its value; and a line that names no macro there is emitted unchanged exactly if the word it
begins is no macro either. A name that begins with `endif` ends a conditional group instead.
-/
theorem step_replaces_iff {name further : Text} (htrim : trim line = '`' :: (name ++ further))
    (hne : name ≠ []) (hword : ∀ c ∈ name, isWordChar c)
    (hmax : further.head?.all (!isWordChar ·) = true)
    (hdirective : ∀ directive ∈ directives, name ≠ directive.toList)
    (below : List Bool) (st : State)
    : (∀ value, st.defines.get? name = some value →
          (step (true :: below) st line
              = (true :: below, st.pushLine (line.takeWhile isWhitespace ++ (value ++ further)))
            ↔
          ¬"endif".toList <+: name
            ∧ (further = []
              ∨ (further.head?.all (!isWhitespace ·) = true
                ∧ (st.defines.get? (name ++ further.takeWhile (!isWhitespace ·))
                    = some (value ++ further)
                  ∨ (st.defines.get? (name ++ further.takeWhile (!isWhitespace ·)) = none
                    ∧ value = '`' :: name ∧ trimStart line = trim line))))))
      ∧ (st.defines.get? name = none →
          (step (true :: below) st line = (true :: below, st.pushLine line)
            ↔
          ¬"endif".toList <+: name
            ∧ ∀ value, st.defines.get? (name ++ further.takeWhile (!isWhitespace ·)) = some value →
              value = trimStart line)) := by
  by_cases hendif : "endif".toList <+: name
  . have hstep (text : Text) : step (true :: below) st line
        ≠ (true :: below, st.pushLine text) := by
      rw [step_eq, kind_eq htrim hword hmax hdirective, if_pos hendif]
      intro heq
      exact pushLine_ne st text (congrArg Prod.snd heq)
    constructor
    . intro value _
      exact iff_of_false (hstep _) fun h => h.1 hendif
    . intro _
      exact iff_of_false (hstep _) fun h => h.1 hendif
  . have hstep (text : Text)
        : step (true :: below) st line
            = (true :: below, st.pushLine (line.takeWhile isWhitespace ++ text))
            ↔ (st.defines.get? (name ++ further.takeWhile (!isWhitespace ·))).getD (trimStart line)
              = text := by
      rw [step_of_isCode (isCode_of_not_endif htrim hword hmax hdirective hendif), Prod.mk.injEq,
        pushLine_inj, replaced_eq htrim hne hword]
      simp
    constructor
    . intro value hget
      rw [hstep, and_iff_right hendif]
      by_cases hfurther : further = []
      . simp [hfurther, hget]
      . rw [or_iff_right hfurther]
        by_cases hspace : further.head?.all (!isWhitespace ·) = true
        . rw [and_iff_right hspace]
          cases hat : st.defines.get? (name ++ further.takeWhile (!isWhitespace ·)) with
          | some value' => simp
          | none => simp [trimStart_eq_append_iff htrim hfurther]
        . rw [takeWhile_eq_nil_of_head? hspace, List.append_nil, hget]
          simp [hspace, hfurther]
    . intro hget
      have hline : line = line.takeWhile isWhitespace ++ trimStart line :=
        List.takeWhile_append_dropWhile.symm
      have hstep' := hstep (trimStart line)
      rw [← hline] at hstep'
      rw [hstep', and_iff_right hendif]
      cases st.defines.get? (name ++ further.takeWhile (!isWhitespace ·)) with
      | some value => simp
      | none => simp

theorem step_replaces_width
    : step [true] (State.init (Dict.empty.insert "W".toList "8".toList)) "  `W".toList
        = ([true], (State.init (Dict.empty.insert "W".toList "8".toList)).pushLine "  8".toList)
      ∧ step [true] (State.init (Dict.empty.insert "W".toList "8".toList)) "`uvm_do(x)".toList
        = ([true], (State.init (Dict.empty.insert "W".toList "8".toList)).pushLine
            "`uvm_do(x)".toList) := by
  have hdefined :=
    step_replaces_iff (show trim "  `W".toList = '`' :: ("W".toList ++ []) from rfl)
      (by decide) (by decide)
    rfl (by decide) [] (State.init (Dict.empty.insert "W".toList "8".toList))
  have hundefined :=
    step_replaces_iff
      (show trim "`uvm_do(x)".toList = '`' :: ("uvm_do".toList ++ "(x)".toList) from rfl)
    (by decide) (by decide) (by decide) (by decide) []
    (State.init (Dict.empty.insert "W".toList "8".toList))
  constructor
  . exact (hdefined.1 "8".toList rfl).mpr ⟨by decide, Or.inl rfl⟩
  . apply (hundefined.2 rfl).mpr
    refine ⟨by decide, ?_⟩
    intro value hget
    have hnone : (State.init (Dict.empty.insert "W".toList "8".toList)).defines.get?
        ("uvm_do".toList ++ "(x)".toList.takeWhile (!isWhitespace ·)) = none := by decide
    rw [hnone] at hget
    contradiction

theorem run_drops_declaration
    : run "`DATA_TYPE [7:0] data;\n".toList (Dict.empty.insert "DATA_TYPE".toList "logic".toList) []
        = ("logic\n".toList, [])
      ∧ run "`DATA_TYPE;\n".toList (Dict.empty.insert "DATA_TYPE".toList "logic".toList) []
        = ("`DATA_TYPE;\n".toList, []) := by
  constructor
  . decide
  . decide

end Pass1Standard
end HdlGraph
