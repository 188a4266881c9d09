import HdlGraph.Parse.Preprocessor.Expansion

/-!
This module contains the text that a line of code is emitted as: what of an invocation can be left
in it, and how it is put together from the texts around an invocation.
-/

namespace HdlGraph
namespace SvPreprocessor

open Text Splice

variable {order : Dict Text Text → List Text} {defines : Dict Text MacroDef}

/-! ## Invocations in the emitted text -/

def BeginsInExpansion (order : Dict Text Text → List Text) (defines : Dict Text MacroDef)
    (line s : Text) : Prop :=
  ∃ c cs expanded more part, Comes (expansion? order defines) line (c :: cs)
    ∧ expansion? order defines (c :: cs) = some (expanded, more)
    ∧ part ≠ [] ∧ part <:+ expanded ∧ s = part ++ splice (expansion? order defines) (cs.drop more)

-- A backtick of the line, or a backtick and a word, stands directly before an invocation
def RunsIntoExpansion (order : Dict Text Text → List Text) (defines : Dict Text MacroDef)
    (line s : Text) : Prop :=
  ∃ word t, Comes (expansion? order defines) line ('`' :: (word ++ t)) ∧ (∀ c ∈ word, isWordChar c)
    ∧ (invocation? defines t).isSome ∧ s = '`' :: (word ++ splice (expansion? order defines) t)

theorem expansion?_of_ne {c : Char} (hc : c ≠ '`') (cs : Text)
    : expansion? order defines (c :: cs) = none := by
  unfold expansion?
  rw [named?_eq_none hc]

theorem expansion?_of_word (order : Dict Text Text → List Text) (defines : Dict Text MacroDef)
    {word : Text} (h : ∀ c ∈ word, isWordChar c) (c : Char) (hc : c ∈ word) (cs : Text)
    : expansion? order defines (c :: cs) = none := by
  apply expansion?_of_ne
  rintro rfl
  exact absurd (h '`' hc) (by decide)

theorem invocation?_backtick {word s : Text} (hword : ∀ c ∈ word, isWordChar c)
    (hs : s.head?.all (!isWordChar ·) = true)
    : invocation? defines ('`' :: (word ++ s))
        = if word.head?.any Char.isAlpha && !isDirective word && defines.containsKey word
          then some s else none := by
  obtain ⟨htake, hdrop⟩ := takeWhile_append_of_head hword hs
  simp only [invocation?]
  rw [← head?_takeWhile_any_isAlpha, htake, hdrop]

theorem runsIntoExpansion_of_copied {cs : Text} {line : Text}
    (hcut : ∀ t, Comes (expansion? order defines) line t → invocation? defines t ≠ some ['('])
    (hcomes : Comes (expansion? order defines) line ('`' :: cs))
    (hcopied : expansion? order defines ('`' :: cs) = none)
    (hinvocation : (invocation? defines ('`' :: splice (expansion? order defines) cs)).isSome)
    : RunsIntoExpansion order defines line ('`' :: splice (expansion? order defines) cs) := by
  have hword : ∀ c ∈ cs.takeWhile isWordChar, isWordChar c := fun c hc => List.mem_takeWhile_imp hc
  have hplain := expansion?_of_word order defines hword
  have hcs := List.takeWhile_append_dropWhile (p := isWordChar) (l := cs)
  have hhead := head?_dropWhile_all isWordChar cs
  generalize cs.takeWhile isWordChar = word at *
  generalize cs.dropWhile isWordChar = t at *
  subst hcs
  rw [splice_append_of_none t hplain] at hinvocation ⊢
  refine ⟨word, t, hcomes, hword, ?_, rfl⟩
  by_contra hnot
  rw [Option.not_isSome_iff_eq_none] at hnot
  -- The character behind the word is copied, so the word is the name in the line already
  have hhead' : (splice (expansion? order defines) t).head?.all (!isWordChar ·) = true := by
    cases t with
    | nil => rfl
    | cons c rest =>
      rw [splice_of_none (expansion?_of_invocation?_eq_none hnot)]
      exact hhead
  have hline : (invocation? defines ('`' :: (word ++ t))).isSome := by
    rw [invocation?_backtick hword hhead'] at hinvocation
    rw [invocation?_backtick hword hhead]
    split at hinvocation
    . next h =>
      rw [if_pos h]
      rfl
    . contradiction
  obtain ⟨afterName, hafter⟩ := Option.isSome_iff_exists.mp hline
  obtain ⟨macroDef, macroName, hnamed, halpha⟩ := invocation?_eq_some_iff.mp hafter
  have hopen : afterName ≠ ['('] := by
    rintro rfl
    exact hcut _ hcomes hafter
  obtain ⟨_, _, _, hexpansion, _⟩ := expansion?_of_named? order hnamed halpha hopen
  rw [hexpansion] at hcopied
  contradiction

theorem exists_of_invocation? {line : Text} (hcut : ¬CutsArguments defines line) {s : Text}
    (hs : s <:+ splice (expansion? order defines) line)
    (hinvocation : (invocation? defines s).isSome)
    : BeginsInExpansion order defines line s ∨ RunsIntoExpansion order defines line s := by
  have hcut' : ∀ t, Comes (expansion? order defines) line t → invocation? defines t ≠ some ['('] :=
    fun t ht hopen => hcut ((cutsArguments_iff_comes order line).mpr ⟨t, ht, hopen⟩)
  have hne : s ≠ [] := by
    rintro rfl
    contradiction
  obtain ⟨c, cs, hcomes, ⟨expanded, more, part, hat, hpart, hsuffix, rfl⟩ | ⟨hat, rfl⟩⟩ :=
    exists_beginsAt hs hne
  . exact Or.inl ⟨c, cs, expanded, more, part, hcomes, hat, hpart, hsuffix, rfl⟩
  . have hc : c = '`' := by
      by_contra hc
      have hnone : invocation? defines (c :: splice (expansion? order defines) cs) = none := by
        unfold invocation?
        split
        . next heq => exact absurd (List.cons.inj heq).1 hc
        . rfl
      rw [hnone] at hinvocation
      contradiction
    subst hc
    exact Or.inr (runsIntoExpansion_of_copied hcut' hcomes hat hinvocation)

/-! ## The texts around an invocation -/

theorem go_eq_drop (skip : Nat) (line : Text)
    : expandInlineMacros.go order defines skip line
        = expandInlineMacros order (line.drop skip) defines := by
  induction line generalizing skip with
  | nil => cases skip <;> rfl
  | cons c cs ih =>
    cases skip with
    | zero => rfl
    | succ skip => exact ih skip

section

variable {c : Char} {cs : Text}

theorem expandInlineMacros_of_expansion? {expanded : Text} {more : Nat}
    (h : expansion? order defines (c :: cs) = some (expanded, more))
    : expandInlineMacros order (c :: cs) defines
        = (expandInlineMacros order (cs.drop more) defines).map (expanded ++ ·) := by
  obtain ⟨_, _, _, _, hnamed, halpha, hexpand, rfl⟩ := exists_of_expansion?_eq_some h
  rw [expandInlineMacros, go_of_named? hnamed halpha, hexpand, ← go_eq_drop]
  rfl

theorem expandInlineMacros_of_copied (h : expansion? order defines (c :: cs) = none)
    (hopen : invocation? defines (c :: cs) ≠ some ['('])
    : expandInlineMacros order (c :: cs) defines
        = (expandInlineMacros order cs defines).map (c :: ·) := by
  cases hinvocation : invocation? defines (c :: cs) with
  | none => exact go_of_invocation?_eq_none hinvocation
  | some afterName =>
    obtain ⟨macroDef, macroName, hnamed, halpha⟩ := invocation?_eq_some_iff.mp hinvocation
    have hopen' : afterName ≠ ['('] := by
      rintro rfl
      exact hopen hinvocation
    obtain ⟨_, _, _, hexpansion, _⟩ := expansion?_of_named? order hnamed halpha hopen'
    rw [hexpansion] at h
    contradiction

end

theorem go_append_of_matching {depth : Nat} {args : Text} {parenClose : Nat}
    (h : findMatchingParen.go depth args = some parenClose) (t : Text)
    : findMatchingParen.go depth (args ++ t) = some parenClose := by
  induction args generalizing depth parenClose with
  | nil => contradiction
  | cons c cs ih =>
    rw [List.cons_append, findMatchingParen.go]
    rw [findMatchingParen.go] at h
    split at h
    . next hopen =>
      obtain ⟨k, hk, rfl⟩ := Option.map_eq_some_iff.mp h
      rw [if_pos hopen, ih hk]
      rfl
    . next hopen =>
      rw [if_neg hopen]
      split at h
      . next hclose =>
        rw [if_pos hclose]
        split at h
        . next hzero => rw [if_pos hzero, h]
        . next hzero =>
          obtain ⟨k, hk, rfl⟩ := Option.map_eq_some_iff.mp h
          rw [if_neg hzero, ih hk]
          rfl
      . next hclose =>
        obtain ⟨k, hk, rfl⟩ := Option.map_eq_some_iff.mp h
        rw [if_neg hclose, ih hk]
        rfl

theorem le_of_go_append {depth : Nat} {args t : Text} {parenClose : Nat}
    (h : findMatchingParen.go depth args = none)
    (hclose : findMatchingParen.go depth (args ++ t) = some parenClose)
    : args.length ≤ parenClose := by
  induction args generalizing depth parenClose with
  | nil => exact Nat.zero_le _
  | cons c cs ih =>
    rw [List.cons_append, findMatchingParen.go] at hclose
    rw [findMatchingParen.go] at h
    have hnext : ∀ {depth' : Nat}, findMatchingParen.go depth' cs = none →
        (findMatchingParen.go depth' (cs ++ t)).map (· + 1) = some parenClose →
        (c :: cs).length ≤ parenClose := by
      intro depth' hnone hsome
      obtain ⟨k, hk, rfl⟩ := Option.map_eq_some_iff.mp hsome
      exact Nat.succ_le_succ (ih hnone hk)
    split at h
    . next hopen =>
      rw [if_pos hopen] at hclose
      exact hnext (Option.map_eq_none_iff.mp h) hclose
    . next hopen =>
      rw [if_neg hopen] at hclose
      split at h
      . next hparen =>
        rw [if_pos hparen] at hclose
        split at h
        . contradiction
        . next hzero =>
          rw [if_neg hzero] at hclose
          exact hnext (Option.map_eq_none_iff.mp h) hclose
      . next hparen =>
        rw [if_neg hparen] at hclose
        exact hnext (Option.map_eq_none_iff.mp h) hclose

theorem named?_append (defines : Dict Text MacroDef) (c : Char) (cs : Text) {t : Text}
    (ht : t.head?.all (!isWordChar ·) = true)
    : named? defines (c :: (cs ++ t))
        = (named? defines (c :: cs)).map fun named =>
          { named with afterName := named.afterName ++ t } := by
  by_cases hc : c = '`'
  . subst hc
    obtain ⟨htake, hdrop⟩ := takeWhile_append_head cs ht
    simp only [named?, htake, hdrop]
    split
    . rfl
    . rw [Option.map_map]
      rfl
  . rw [named?_eq_none hc, named?_eq_none hc]
    rfl

section

variable {t : Text} {c : Char} {cs : Text}

theorem copied_of_unread (order : Dict Text Text → List Text) {s : Text}
    (h : ∀ named ∈ named? defines s, ¬named.macroName.head?.any Char.isAlpha = true)
    : expansion? order defines s = none ∧ invocation? defines s = none := by
  have hinvocation : invocation? defines s = none := by
    by_contra hinvocation
    obtain ⟨afterName, hafter⟩ := Option.ne_none_iff_exists'.mp hinvocation
    obtain ⟨_, _, hnamed, halpha⟩ := invocation?_eq_some_iff.mp hafter
    exact h _ hnamed halpha
  exact ⟨expansion?_of_invocation?_eq_none hinvocation, hinvocation⟩

theorem expansion?_append_of_named? {macroDef : MacroDef} {macroName afterName : Text}
    (hnamed : named? defines (c :: cs) = some ⟨macroDef, macroName, afterName⟩)
    (halpha : macroName.head?.any Char.isAlpha = true) (ht : t.head? = some '`')
    (hle : t.length ≤ (Splice.behind (expansion? order defines) (c :: (cs ++ t))).length)
    : ∃ expanded more, expansion? order defines (c :: cs) = some (expanded, more)
        ∧ expansion? order defines (c :: (cs ++ t)) = some (expanded, more) ∧ more ≤ cs.length := by
  have hword : t.head?.all (!isWordChar ·) = true := by
    rw [ht]
    decide
  have hnamed' := named?_append defines c cs hword
  rw [hnamed, Option.map_some] at hnamed'
  obtain ⟨heq, _⟩ := named?_eq_some hnamed
  have hcs := (List.cons.inj heq).2
  by_cases hopen : afterName.head? = some '('
  . obtain ⟨args, rfl⟩ : ∃ args, afterName = '(' :: args := by
      cases afterName with
      | nil => contradiction
      | cons d ds =>
        cases hopen
        exact ⟨ds, rfl⟩
    cases hclose : findMatchingParen args with
    | some parenClose =>
      have hclose' : findMatchingParen (args ++ t) = some parenClose :=
        go_append_of_matching hclose t
      have hlt := findMatchingParen_lt hclose
      have hexpand : expandInvocation order macroDef ('(' :: (args ++ t)) = _ :=
        expandInvocation_of_matching _ hclose'
      rw [List.take_append_of_le_length (Nat.le_of_lt hlt)] at hexpand
      refine ⟨expandWith order macroDef (args.take parenClose),
        macroName.length + (parenClose + 2), ?_, ?_, ?_⟩
      . exact expansion?_of_expandInvocation hnamed halpha (expandInvocation_of_matching _ hclose)
      . exact expansion?_of_expandInvocation hnamed' halpha hexpand
      . rw [hcs, List.length_append, List.length_cons]
        omega
    | none =>
      have hne : t ≠ [] := by
        rintro rfl
        contradiction
      have hpos := List.length_pos_iff.mpr hne
      have hcut : '(' :: (args ++ t) ≠ ['('] := by simp [hne]
      obtain ⟨_, _, _, hexpansion, hdrop⟩ := expansion?_of_named? order hnamed' halpha hcut
      rw [behind_of_some hexpansion, hdrop, List.cons_append] at hle
      simp only [behindArguments] at hle
      split at hle
      . next parenClose hclose' =>
        have := le_of_go_append hclose hclose'
        rw [List.length_drop, List.length_append] at hle
        omega
      . rw [List.length_nil] at hle
        omega
  . have hopen' : (afterName ++ t).head? ≠ some '(' := by
      cases afterName with
      | nil => simp [ht]
      | cons d ds => exact hopen
    refine ⟨macroDef.body, macroName.length + 0, ?_, ?_, ?_⟩
    . exact expansion?_of_expandInvocation hnamed halpha (expandInvocation_of_ne _ hopen)
    . exact expansion?_of_expandInvocation hnamed' halpha (expandInvocation_of_ne _ hopen')
    . rw [hcs, List.length_append]
      omega

theorem expandInlineMacros_append (ht : t.head? = some '`') {front : Text}
    (hcomes : Comes (expansion? order defines) (front ++ t) t)
    : expandInlineMacros order (front ++ t) defines
        = (expandInlineMacros order front defines).bind fun before =>
          (expandInlineMacros order t defines).map (before ++ ·) := by
  induction front using places_induction (expansion? order defines) with
  | nil =>
    change expandInlineMacros order t defines = (expandInlineMacros order t defines).map ([] ++ ·)
    cases expandInlineMacros order t defines <;> rfl
  | place c cs ih =>
    have hword : t.head?.all (!isWordChar ·) = true := by
      rw [ht]
      decide
    have hcomes' : Comes (expansion? order defines)
        (Splice.behind (expansion? order defines) (c :: (cs ++ t))) t := by
      generalize hfull : c :: cs ++ t = full at hcomes
      cases hcomes with
      | here =>
        have := congrArg List.length hfull
        simp only [List.length_append, List.length_cons] at this
        omega
      | onward _ h =>
        rw [← hfull] at h
        exact h
    have hnamed' := named?_append defines c cs hword
    by_cases hread : ∃ named ∈ named? defines (c :: cs),
      named.macroName.head?.any Char.isAlpha = true
    . obtain ⟨named, hnamed, halpha⟩ := hread
      obtain ⟨expanded, more, hat, hat', hmore⟩ :=
        expansion?_append_of_named? hnamed halpha ht hcomes'.suffix.length_le
      rw [behind_of_some hat', List.drop_append_of_le_length hmore] at hcomes'
      rw [behind_of_some hat] at ih
      rw [List.cons_append, expandInlineMacros_of_expansion? hat',
        expandInlineMacros_of_expansion? hat, List.drop_append_of_le_length hmore, ih hcomes']
      cases expandInlineMacros order (cs.drop more) defines <;> cases expandInlineMacros
        order t defines <;>
        simp [Except.map, Except.bind]
    . push Not at hread
      obtain ⟨h, hinvocation⟩ := copied_of_unread order hread
      have hread' : ∀ named ∈ named? defines (c :: (cs ++ t)),
          ¬named.macroName.head?.any Char.isAlpha = true := by
        intro named hnamed
        rw [hnamed', Option.mem_def, Option.map_eq_some_iff] at hnamed
        obtain ⟨named', hmem, rfl⟩ := hnamed
        exact hread named' hmem
      obtain ⟨h', hinvocation'⟩ := copied_of_unread order hread'
      rw [behind_of_none h'] at hcomes'
      rw [behind_of_none h] at ih
      rw [List.cons_append, expandInlineMacros_of_copied h' (by simp [hinvocation']),
        expandInlineMacros_of_copied h (by simp [hinvocation]), ih hcomes']
      cases expandInlineMacros order cs defines <;> cases expandInlineMacros order t defines <;> rfl

end

/-! ## Lines of code -/

-- No arm of the preprocessor for a directive takes the line
def IsCode (line : Text) : Prop :=
  kind line = .plain ∧ stripDirective (trim line) "define" = none ∧ isOrdinary line = true

instance (line : Text) : Decidable (IsCode line) :=
  inferInstanceAs (Decidable (kind line = .plain ∧ stripDirective (trim line) "define" = none
    ∧ isOrdinary line = true))

section

variable {π : Type} {fs : FileSystem π}
  {preprocessFile : π → Dict Text MacroDef → List π → Except Halt (State π)}
variable {includeDirs : List π} {currentFile : π} {st : State π} {line : Text}

theorem processLine_of_isCode (h : IsCode line)
    : processLine fs order preprocessFile includeDirs currentFile st line
        = (expandInlineMacros order line st.defines).map fun expanded =>
          st.push (expanded ++ ['\n']) := by
  obtain ⟨_, hdefine, hordinary⟩ := h
  simp only [isOrdinary, Bool.and_eq_true, Option.isNone_iff_eq_none, Bool.not_eq_true']
    at hordinary
  obtain ⟨⟨hundef, hinclude⟩, hpass⟩ := hordinary
  unfold processLine
  simp only [hdefine, hundef, hinclude, hpass]
  cases expandInlineMacros order line st.defines <;> rfl

theorem processLines_of_isCode (h : IsCode line) {top : IfdefState} (hactive : top.active = true)
    (below : List IfdefState) (rest : List Text)
    : processLines fs order preprocessFile includeDirs currentFile (line :: rest) (top :: below) st
        = (expandInlineMacros order line st.defines).bind fun expanded =>
          processLines fs order preprocessFile includeDirs currentFile rest (top :: below)
            (st.push (expanded ++ ['\n'])) := by
  rw [processLines_eq, h.1]
  simp only [hactive, if_true]
  rw [processLine_of_isCode h]
  cases expandInlineMacros order line st.defines <;> rfl

end

def RefersTo (defines : Dict Text MacroDef) (a b : Text) : Prop :=
  ∃ macroDef s named, defines.get? a = some macroDef ∧ s <:+ macroDef.body
    ∧ named? defines s = some named
    ∧ named.macroName = b

def nestedMacros : Dict Text MacroDef :=
  (Dict.empty.insert "B".toList (.object "1".toList)).insert "A".toList (.object "`B".toList)

theorem not_transGen_refersTo_nestedMacros (a : Text)
    : ¬Relation.TransGen (RefersTo nestedMacros) a a := by
  have hstep : ∀ a b, RefersTo nestedMacros a b → a = "A".toList ∧ b = "B".toList := by
    rintro a b ⟨macroDef, s, named, hget, hs, hnamed, rfl⟩
    have hall : ∀ entry ∈ nestedMacros.toList, ∀ s ∈ entry.2.body.tails,
        ∀ named ∈ named? nestedMacros s,
        entry.1 = "A".toList ∧ named.macroName = "B".toList := by
      decide
    exact hall _ (Dict.mem_toList_iff.mpr hget) s ((List.mem_tails _ _).mpr hs) named hnamed
  have hrun : ∀ b, Relation.TransGen (RefersTo nestedMacros) a b → a = "A".toList
      ∧ b = "B".toList := by
    intro b h
    induction h with
    | single h => exact hstep _ _ h
    | tail _ h ih => exact ⟨ih.1, (hstep _ _ h).2⟩
  intro h
  have := hrun a h
  rw [this.1] at this
  exact absurd this.2 (by decide)

end SvPreprocessor
end HdlGraph
