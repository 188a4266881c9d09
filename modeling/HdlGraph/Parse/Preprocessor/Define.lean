import HdlGraph.Parse.Preprocessor.Emitted

/-!
This module contains the `define` lines of a source: the entry such a line makes in the define
table, and the text that the macro is replaced by on later lines.
-/

namespace HdlGraph
namespace SvPreprocessor

open Text Splice

variable {π : Type} {fs : FileSystem π} {order : Dict Text Text → List Text}
variable {preprocessFile : π → Dict Text MacroDef → List π → Except Halt (State π)}
  {includeDirs : List π}
variable {currentFile : π} {line rest : Text}

/-! ## The entry of a `define` line -/

def afterDefinedName (rest : Text) : Text :=
  (trim rest).dropWhile fun c => !(isWhitespace c || c = '(')

def OpensParams (s : Text) : Prop := s.head? = some '(' ∧ (findMatchingParen s.tail).isSome

instance (s : Text) : Decidable (OpensParams s) :=
  inferInstanceAs (Decidable (s.head? = some '(' ∧ (findMatchingParen s.tail).isSome))

theorem exists_of_stripDirective {s : Text} {directive : String}
    (h : stripDirective s directive = some rest)
    : s = '`' :: (directive.toList ++ rest) := by
  obtain ⟨hpre, _⟩ := Option.filter_eq_some_iff.mp h
  unfold stripPrefix? at hpre
  split at hpre
  . next hfound =>
    obtain ⟨t, ht⟩ := List.isPrefixOf_iff_prefix.mp hfound
    cases hpre
    rw [← ht, List.drop_left, List.cons_append]
  . contradiction

theorem kind_of_define (h : stripDirective (trim line) "define" = some rest)
    : kind line = .plain := by
  simp [kind, exists_of_stripDirective h, stripDirective, stripPrefix?]

theorem processLines_of_define (h : stripDirective (trim line) "define" = some rest)
    (hname : definedName rest ≠ []) {top : IfdefState} (hactive : top.active = true)
    (below : List IfdefState) (ls : List Text) (st : State π)
    : processLines fs order preprocessFile includeDirs currentFile (line :: ls) (top :: below) st
        = (parseDefine (behindDefinedName rest)).bind fun macroDef =>
          processLines fs order preprocessFile includeDirs currentFile ls (top :: below)
            { st.push (commented line) with
              defines := st.defines.insert (definedName rest) macroDef } := by
  rw [processLines_eq, kind_of_define h]
  simp only [hactive, if_true]
  have hline : processLine fs order preprocessFile includeDirs currentFile st line
      = (parseDefine (behindDefinedName rest)).bind fun macroDef =>
        .ok { st.push (commented line) with
          defines := st.defines.insert (definedName rest) macroDef } := by
    unfold processLine
    simp only [h]
    exact (if_neg hname).trans rfl
  rw [hline]
  cases parseDefine (behindDefinedName rest) <;> rfl

theorem parseDefine_of_not_opensParams {s : Text} (h : ¬OpensParams s)
    : parseDefine s = .ok (.object s) := by
  unfold parseDefine
  split
  . next ps =>
    have hnone : findMatchingParen ps = none := by
      by_contra hsome
      exact h ⟨rfl, Option.isSome_iff_ne_none.mpr hsome⟩
    simp [hnone]
  . rfl

theorem params_of_opensParams {s : Text} (h : OpensParams s) {macroDef : MacroDef}
    (hok : parseDefine s = .ok macroDef)
    : macroDef.params.isSome := by
  obtain ⟨hhead, hclose⟩ := h
  cases s with
  | nil => contradiction
  | cons c ps =>
    cases hhead
    obtain ⟨parenClose, hclose⟩ := Option.isSome_iff_exists.mp hclose
    rw [List.tail_cons] at hclose
    simp only [parseDefine, hclose] at hok
    split at hok
    . cases hok
      rfl
    . contradiction

theorem exists_parseDefine {s : Text} (h : ¬CutsParams s)
    : ∃ macroDef, parseDefine s = .ok macroDef := by
  rw [← parseDefine_eq_panic_iff] at h
  cases hparse : parseDefine s with
  | ok macroDef => exact ⟨macroDef, rfl⟩
  | error halt =>
    cases halt with
    | panic => exact absurd hparse h
    | outOfFuel => exact absurd hparse (parseDefine_ne_outOfFuel s)

theorem behindDefinedName_eq_trim (rest : Text)
    : behindDefinedName rest = trim (afterDefinedName rest) :=
  trimStart_eq_trim_of_suffix (List.dropWhile_suffix _)

theorem behindDefinedName_of_paren {rest : Text} (h : (afterDefinedName rest).head? = some '(')
    : behindDefinedName rest = afterDefinedName rest := by
  unfold behindDefinedName trimStart
  change (afterDefinedName rest).dropWhile isWhitespace = _
  cases hafter : afterDefinedName rest with
  | nil => rfl
  | cons c cs =>
    rw [hafter] at h
    cases h
    exact List.dropWhile_cons_of_neg (by decide)

section

variable (fs order preprocessFile includeDirs currentFile)

-- The table has parameters for the name exactly if a parenthesis directly follows it on the line,
-- and otherwise the rest of the line as the body
def EntryAsWritten (line rest : Text) : Prop :=
  ∀ (top : IfdefState) (below : List IfdefState) (st : State π), top.active = true →
    ∃ st' macroDef,
      processLines fs order preprocessFile includeDirs currentFile [line] (top :: below) st
        = .ok st'
        ∧ st'.defines.get? (definedName rest) = some macroDef
        ∧ (macroDef.params.isSome ↔ (afterDefinedName rest).head? = some '(')
        ∧ ((afterDefinedName rest).head? ≠ some '(' →
            macroDef = .object (trim (afterDefinedName rest)))

end

theorem entryAsWritten_iff (h : stripDirective (trim line) "define" = some rest)
    (hname : definedName rest ≠ [])
    : EntryAsWritten fs order preprocessFile includeDirs currentFile line rest
        ↔
      if (afterDefinedName rest).head? = some '(' then
        OpensParams (afterDefinedName rest) ∧ ¬CutsParams (afterDefinedName rest)
      else
        ¬OpensParams (trim (afterDefinedName rest)) := by
  have hrun (top : IfdefState) (below : List IfdefState) (st : State π)
      (hactive : top.active = true)
      : processLines fs order preprocessFile includeDirs currentFile [line] (top :: below) st
          = (parseDefine (behindDefinedName rest)).bind fun macroDef =>
            .ok { st.push (commented line) with
              defines := st.defines.insert (definedName rest) macroDef } :=
    processLines_of_define h hname hactive below [] st
  constructor
  . intro hentry
    obtain ⟨st', macroDef, hok, hget, hparams, _⟩ :=
      hentry ⟨true, true, true⟩ [] ⟨[], Dict.empty, []⟩ rfl
    rw [hrun _ _ _ rfl] at hok
    cases hparse : parseDefine (behindDefinedName rest) with
    | error halt =>
      rw [hparse] at hok
      contradiction
    | ok parsed =>
      rw [hparse] at hok
      cases hok
      rw [Dict.get?_insert_self, Option.some.injEq] at hget
      subst hget
      split
      . next hparen =>
        rw [behindDefinedName_of_paren hparen] at hparse
        constructor
        . by_contra hopens
          rw [parseDefine_of_not_opensParams hopens] at hparse
          cases hparse
          exact absurd (hparams.mpr hparen) nofun
        . intro hcuts
          rw [parseDefine_eq_panic_iff.mpr hcuts] at hparse
          contradiction
      . next hparen =>
        intro hopens
        rw [← behindDefinedName_eq_trim] at hopens
        exact hparen (hparams.mp (params_of_opensParams hopens hparse))
  . intro hright top below st hactive
    rw [hrun top below st hactive]
    split at hright
    . next hparen =>
      rw [behindDefinedName_of_paren hparen]
      obtain ⟨macroDef, hparse⟩ := exists_parseDefine hright.2
      rw [hparse]
      refine ⟨_, macroDef, rfl, Dict.get?_insert_self _ _ _, ?_, fun hnot => absurd hparen hnot⟩
      exact iff_of_true (params_of_opensParams hright.1 hparse) hparen
    . next hparen =>
      rw [behindDefinedName_eq_trim, parseDefine_of_not_opensParams hright]
      exact ⟨_, _, rfl, Dict.get?_insert_self _ _ _, iff_of_false nofun hparen, fun _ => rfl⟩

/-! ## The uses of a macro on later lines -/

section

variable (fs order preprocessFile includeDirs currentFile)

-- Wherever the scanner comes to the name, the body is written for it, between the texts of what
-- stands around it
def EmitsBody (name body : Text) : Prop :=
  ∀ (top : IfdefState) (below : List IfdefState) (st : State π) (front back : Text),
    top.active = true →
    st.defines.get? name = some (.object body) →
    IsCode (front ++ '`' :: (name ++ back)) →
    Comes (expansion? order st.defines) (front ++ '`' :: (name ++ back)) ('`' :: (name ++ back)) →
    back.head?.all (fun c => !isWordChar c && c ≠ '(') = true →
    processLines fs order preprocessFile includeDirs currentFile [front ++ '`' :: (name ++ back)]
        (top :: below) st
      = (expandInlineMacros order front st.defines).bind fun before =>
        (expandInlineMacros order back st.defines).map fun after =>
          st.push (before ++ body ++ after ++ ['\n'])

end

def IsReadable (name : Text) : Prop :=
  name.head?.any Char.isAlpha = true ∧ (∀ c ∈ name, isWordChar c) ∧ isDirective name = false

-- In no table the text starts an invocation, also none within it
def IsInert (s : Text) : Prop :=
  ∀ cs, '`' :: cs <:+ s → cs.head?.any Char.isAlpha = true →
    isDirective (cs.takeWhile isWordChar) = true

theorem emitsBody_of_expand {name body : Text}
    (h : ∀ defines : Dict Text MacroDef, defines.get? name = some (.object body) → ∀ back,
      back.head?.all (fun c => !isWordChar c && c ≠ '(') = true →
      expandInlineMacros order ('`' :: (name ++ back)) defines
        = (expandInlineMacros order back defines).map (body ++ ·))
    : EmitsBody fs order preprocessFile includeDirs currentFile name body := by
  intro top below st front back hactive hget hcode hcomes hback
  rw [processLines_of_isCode hcode hactive, expandInlineMacros_append rfl hcomes,
    h _ hget back hback]
  cases expandInlineMacros order front st.defines <;> cases expandInlineMacros order back
    st.defines <;>
    simp [Except.bind, Except.map, processLines]

theorem head?_all_of_back {back : Text}
    (h : back.head?.all (fun c => !isWordChar c && c ≠ '(') = true)
    : back.head?.all (!isWordChar ·) = true ∧ back.head? ≠ some '(' := by
  cases back with
  | nil => exact ⟨rfl, nofun⟩
  | cons c cs => simpa using h

theorem named?_of_word (defines : Dict Text MacroDef) {word s : Text} (hne : word ≠ [])
    (hword : ∀ c ∈ word, isWordChar c) (hdirective : isDirective word = false)
    (hs : s.head?.all (!isWordChar ·) = true)
    : named? defines ('`' :: (word ++ s)) = (defines.get? word).map (⟨·, word, s⟩) := by
  obtain ⟨htake, hdrop⟩ := takeWhile_append_of_head hword hs
  simp [named?, htake, hdrop, hne, hdirective]

theorem emitsBody_of_isReadable {name : Text} (h : IsReadable name) (body : Text)
    : EmitsBody fs order preprocessFile includeDirs currentFile name body := by
  obtain ⟨halpha, hword, hdirective⟩ := h
  apply emitsBody_of_expand
  intro defines hget back hback
  obtain ⟨hhead, hparen⟩ := head?_all_of_back hback
  have hne : name ≠ [] := by
    rintro rfl
    contradiction
  have hnamed := named?_of_word defines hne hword hdirective hhead
  rw [hget, Option.map_some] at hnamed
  have hexpansion : expansion? order defines ('`' :: (name ++ back))
      = some (body, name.length + 0) :=
    expansion?_of_expandInvocation hnamed halpha (expandInvocation_of_ne _ hparen)
  rw [expandInlineMacros_of_expansion? hexpansion, drop_name]
  rfl

theorem named?_backtick {defines : Dict Text MacroDef} {cs : Text} {named : Named}
    (h : named? defines ('`' :: cs) = some named)
    : named.macroName = cs.takeWhile isWordChar ∧ isDirective named.macroName = false := by
  simp only [named?] at h
  split at h
  . contradiction
  . next hnot =>
    obtain ⟨_, _, rfl⟩ := Option.map_eq_some_iff.mp h
    exact ⟨rfl, by simpa using fun h => hnot (Or.inr h)⟩

theorem isReadable_of_named? {defines : Dict Text MacroDef} {s : Text} {named : Named}
    (h : named? defines s = some named) (halpha : named.macroName.head?.any Char.isAlpha = true)
    : IsReadable named.macroName := by
  obtain ⟨rfl, _, hword, _⟩ := named?_eq_some h
  exact ⟨halpha, hword, (named?_backtick h).2⟩

theorem expandInlineMacros_of_unread {defines : Dict Text MacroDef} {s back : Text}
    (h : ∀ t, t <:+ s → t ≠ [] →
      ∀ named ∈ named? defines (t ++ back), ¬named.macroName.head?.any Char.isAlpha = true)
    : expandInlineMacros order (s ++ back) defines
        = (expandInlineMacros order back defines).map (s ++ ·) := by
  induction s with
  | nil =>
    change expandInlineMacros order back defines = _
    cases expandInlineMacros order back defines <;> rfl
  | cons c cs ih =>
    have hrest := ih fun t ht => h t (ht.trans (List.suffix_cons c cs))
    obtain ⟨hexpansion, hinvocation⟩ :=
      copied_of_unread order (h _ List.suffix_rfl (List.cons_ne_nil c cs))
    rw [List.cons_append] at hexpansion hinvocation ⊢
    rw [expandInlineMacros_of_copied hexpansion (by simp [hinvocation]), hrest]
    cases expandInlineMacros order back defines <;> rfl

theorem emitsBody_of_isInert {name : Text} (h : IsInert ('`' :: name))
    : EmitsBody fs order preprocessFile includeDirs currentFile name ('`' :: name) := by
  apply emitsBody_of_expand
  intro defines _ back hback
  obtain ⟨hhead, _⟩ := head?_all_of_back hback
  rw [← List.cons_append]
  apply expandInlineMacros_of_unread
  intro t ht hne named hnamed halpha
  obtain ⟨c, cs, rfl⟩ := List.exists_cons_of_ne_nil hne
  rw [List.cons_append, Option.mem_def] at hnamed
  obtain ⟨heq, _⟩ := named?_eq_some hnamed
  obtain ⟨rfl, _⟩ := List.cons.inj heq
  obtain ⟨hname, hdirective⟩ := named?_backtick hnamed
  rw [(takeWhile_append_head cs hhead).1] at hname
  rw [hname] at halpha hdirective
  rw [head?_takeWhile_any_isAlpha] at halpha
  rw [h cs ht halpha] at hdirective
  contradiction

/-!
Any other name is left as it is in a table with no other entry; and if the text of the name holds an
invocation, then a table with this entry takes it from the line.
-/

theorem isCode_of_head? {line : Text} (h : (trim line).head? ≠ some '`') : IsCode line := by
  have hstrip : ∀ directive, stripDirective (trim line) directive = none := by
    intro directive
    have hpre : ('`' :: directive.toList).isPrefixOf (trim line) = false := by
      cases hline : trim line with
      | nil => rfl
      | cons c cs =>
        have hc : '`' ≠ c := by
          rintro rfl
          rw [hline] at h
          exact h rfl
        simp [List.isPrefixOf, hc]
    simp [stripDirective, stripPrefix?, hpre]
  have helse : trim line ≠ "`else".toList := by
    intro heq
    exact h (by rw [heq]; rfl)
  have hendif : trim line ≠ "`endif".toList := by
    intro heq
    exact h (by rw [heq]; rfl)
  refine ⟨?_, hstrip _, ?_⟩
  . simp only [kind, hstrip, helse, hendif]
    rfl
  . simp only [isOrdinary, hstrip]
    simp

theorem comes_backtick {defines : Dict Text MacroDef} {s cs : Text} (hparen : '(' ∉ s)
    (h : '`' :: cs <:+ s)
    : Comes (expansion? order defines) s ('`' :: cs) := by
  induction s using places_induction (expansion? order defines) with
  | nil => exact absurd (List.suffix_nil.mp h) (List.cons_ne_nil _ _)
  | place c ds ih =>
    obtain heq | hds := List.suffix_cons_iff.mp h
    . rw [heq]
      exact .here _
    . apply Comes.onward (List.cons_ne_nil c ds)
      have hparen' : '(' ∉ ds := List.not_mem_of_not_mem_cons hparen
      by_cases hread : ∃ named ∈ named? defines (c :: ds),
        named.macroName.head?.any Char.isAlpha = true
      . obtain ⟨⟨macroDef, macroName, afterName⟩, hnamed, halpha⟩ := hread
        obtain ⟨heq, _, hword, _⟩ := named?_eq_some hnamed
        obtain ⟨rfl, rfl⟩ := List.cons.inj heq
        have hafter : afterName.head? ≠ some '(' := by
          intro hhead
          exact hparen' (List.mem_append_right _ (List.mem_of_head? hhead))
        have hexpansion : expansion? order defines ('`' :: (macroName ++ afterName))
            = some (macroDef.body, macroName.length + 0) :=
          expansion?_of_expandInvocation hnamed halpha (expandInvocation_of_ne _ hafter)
        rw [behind_of_some hexpansion, drop_name, List.drop_zero] at ih ⊢
        apply ih (fun hmem => hparen' (List.mem_append_right _ hmem))
        -- no backtick is in the name
        obtain ⟨front, hfront⟩ := hds
        obtain ⟨part, hpart, hcs⟩ | ⟨part, _, hafter'⟩ := List.append_eq_append_iff.mp hfront
        . cases part with
          | nil => exact ⟨[], by rw [hcs]; rfl⟩
          | cons d rest =>
            have hd : d = '`' := (List.cons.inj hcs).1.symm
            have hmem : '`' ∈ macroName := by rw [hpart, hd]; simp
            exact absurd (hword '`' hmem) (by decide)
        . exact ⟨part, hafter'.symm⟩
      . push Not at hread
        obtain ⟨hexpansion, _⟩ := copied_of_unread order hread
        rw [behind_of_none hexpansion] at ih ⊢
        exact ih hparen' hds

theorem fst_of_mem_expansion? {defines : Dict Text MacroDef} {s : Text} {taken : Text × Nat}
    (hempty : ∀ macroName macroDef, IsReadable macroName → defines.get? macroName = some macroDef →
      macroDef = .object []) (h : taken ∈ expansion? order defines s)
    : taken.1 = [] := by
  obtain ⟨macroDef, macroName, afterName, _, hnamed, halpha, hexpand, _⟩ :=
    exists_of_expansion?_eq_some (Option.mem_def.mp h)
  obtain ⟨_, _, _, hget⟩ := named?_eq_some hnamed
  obtain rfl := hempty _ _ (isReadable_of_named? hnamed halpha) hget
  have hbody : taken.1 = (MacroDef.object []).body := eq_body_of_expandInvocation rfl hexpand
  exact hbody

theorem expansion?_ne_none_of_isReadable {defines : Dict Text MacroDef} {cs : Text}
    (hparen : '(' ∉ cs)
    (hread : IsReadable (cs.takeWhile isWordChar))
    (hget : defines.containsKey (cs.takeWhile isWordChar) = true)
    : expansion? order defines ('`' :: cs) ≠ none := by
  obtain ⟨halpha, hword, hdirective⟩ := hread
  have hnil : cs.takeWhile isWordChar ≠ [] := by
    intro hnil
    rw [hnil] at halpha
    contradiction
  obtain ⟨macroDef, hmacro⟩ := Dict.containsKey_iff.mp hget
  have hnamed := named?_of_word defines hnil hword hdirective (head?_dropWhile_all isWordChar cs)
  rw [List.takeWhile_append_dropWhile, hmacro, Option.map_some] at hnamed
  have hopen : cs.dropWhile isWordChar ≠ ['('] := by
    intro heq
    apply hparen
    apply (List.dropWhile_suffix isWordChar).subset
    rw [heq]
    exact List.mem_cons_self
  obtain ⟨_, _, _, hsome, _⟩ := expansion?_of_named? order hnamed halpha hopen
  rw [hsome]
  exact Option.some_ne_none _

section

variable {name body : Text} (hname : ∀ c ∈ name, isWhitespace c = false ∧ c ≠ '(')

include hname

theorem EmitsBody.expand (h : EmitsBody fs order preprocessFile includeDirs currentFile name body)
    {defines : Dict Text MacroDef} (hget : defines.get? name = some (.object body))
    : expandInlineMacros order ('x' :: '`' :: name) defines = .ok ('x' :: body) := by
  have hcode : IsCode ('x' :: '`' :: name) := by
    apply isCode_of_head?
    rw [trim_of_not_isWhitespace]
    . exact fun heq => absurd (Option.some.inj heq) (by decide)
    . intro c hc
      rcases List.mem_cons.mp hc with rfl | hc
      . decide
      . rcases List.mem_cons.mp hc with rfl | hc
        . decide
        . exact (hname c hc).1
  have hcomes : Comes (expansion? order defines) ('x' :: '`' :: name) ('`' :: name) := by
    apply Comes.onward (List.cons_ne_nil _ _)
    rw [behind_of_none (expansion?_of_ne (by decide) _)]
    exact .here _
  have hrun : processLines fs order preprocessFile includeDirs currentFile ['x' :: '`' :: name]
      [⟨true, true, true⟩]
      ⟨[], defines, []⟩
    = .ok ⟨('x' :: body) ++ ['\n'], defines, []⟩ := by
    have :=
      h ⟨true, true, true⟩ [] ⟨[], defines, []⟩ ['x'] [] rfl hget (by simpa using hcode)
        (by simpa using hcomes) rfl
    simpa [expandInlineMacros, expandInlineMacros.go, Except.map, Except.bind, State.push]
      using this
  rw [processLines_of_isCode hcode rfl] at hrun
  cases hexpand : expandInlineMacros order ('x' :: '`' :: name) defines with
  | error halt =>
    rw [hexpand] at hrun
    contradiction
  | ok expanded =>
    rw [hexpand] at hrun
    simp only [Except.bind, processLines, State.push, List.nil_append, Except.ok.injEq,
      State.mk.injEq, and_true] at hrun
    rw [List.append_cancel_right hrun]

theorem body_eq_of_emitsBody
    (h : EmitsBody fs order preprocessFile includeDirs currentFile name body)
    (hread : ¬IsReadable name)
    : body = '`' :: name := by
  have hget : (Dict.empty.insert name (MacroDef.object body)).get? name = some (.object body) :=
    Dict.get?_insert_self _ _ _
  have hexpand := h.expand hname hget
  have hcopied : expandInlineMacros order ('x' :: '`' :: name ++ [])
        (Dict.empty.insert name (MacroDef.object body))
      = (expandInlineMacros order [] (Dict.empty.insert name (MacroDef.object body))).map
        ('x' :: '`' :: name ++ ·) := by
    apply expandInlineMacros_of_unread
    intro t _ _ named hnamed halpha
    obtain ⟨_, _, _, hmacro⟩ := named?_eq_some (Option.mem_def.mp hnamed)
    have hreadable := isReadable_of_named? (Option.mem_def.mp hnamed) halpha
    rw [Dict.get?_insert] at hmacro
    split at hmacro
    . next heq =>
      rw [heq] at hreadable
      exact hread hreadable
    . contradiction
  rw [List.append_nil, hexpand] at hcopied
  have heq : 'x' :: body = 'x' :: '`' :: name ++ [] := Except.ok.inj hcopied
  rw [List.append_nil, List.cons.injEq] at heq
  exact heq.2

theorem isInert_of_emitsBody
    (h : EmitsBody fs order preprocessFile includeDirs currentFile name ('`' :: name))
    (hread : ¬IsReadable name)
    : IsInert ('`' :: name) := by
  intro cs hcs halpha
  by_contra hdirective
  rw [Bool.not_eq_true] at hdirective
  rw [← head?_takeWhile_any_isAlpha] at halpha
  have hreadable : IsReadable (cs.takeWhile isWordChar) :=
    ⟨halpha, fun c hc => List.mem_takeWhile_imp hc, hdirective⟩
  have hne : cs.takeWhile isWordChar ≠ name := by
    intro heq
    rw [heq] at hreadable
    exact hread hreadable
  generalize hdefines : (Dict.empty.insert name (MacroDef.object ('`' :: name))).insert
    (cs.takeWhile isWordChar)
    (.object []) = defines
  have hget : defines.get? name = some (.object ('`' :: name)) := by
    rw [← hdefines, Dict.get?_insert_of_ne _ _ hne.symm, Dict.get?_insert_self]
  have hget' : defines.get? (cs.takeWhile isWordChar) = some (.object []) := by
    rw [← hdefines, Dict.get?_insert_self]
  have hempty : ∀ macroName macroDef, IsReadable macroName →
      defines.get? macroName = some macroDef →
      macroDef = .object [] := by
    intro macroName macroDef hmacro hdef
    rw [← hdefines, Dict.get?_insert] at hdef
    split at hdef
    . exact (Option.some.inj hdef).symm
    . rw [Dict.get?_insert] at hdef
      split at hdef
      . next heq => exact absurd (heq ▸ hmacro) hread
      . contradiction
  obtain ⟨_, hsplice⟩ := expandInlineMacros_eq_ok_iff.mp (h.expand hname hget)
  have hparen : '(' ∉ 'x' :: '`' :: name := by
    have hname' : '(' ∉ name := fun hmem => (hname _ hmem).2 rfl
    simp [hname']
  have hcomes : Comes (expansion? order defines) ('x' :: '`' :: name) ('`' :: cs) :=
    comes_backtick hparen (hcs.trans (List.suffix_cons _ _))
  have hparen' : '(' ∉ cs :=
    fun hmem => hparen (List.mem_cons_of_mem _ (hcs.subset (List.mem_cons_of_mem _ hmem)))
  have hexpansion : expansion? order defines ('`' :: cs) ≠ none :=
    expansion?_ne_none_of_isReadable hparen' hreadable (Dict.containsKey_iff.mpr ⟨_, hget'⟩)
  have hlt :=
    length_splice_lt (fun t _ taken htaken => fst_of_mem_expansion? hempty htaken) hcomes hexpansion
    (List.cons_ne_nil _ _)
  rw [hsplice] at hlt
  exact absurd hlt (Nat.lt_irrefl _)

theorem emitsBody_iff
    : EmitsBody fs order preprocessFile includeDirs currentFile name body
        ↔ IsReadable name ∨ (body = '`' :: name ∧ IsInert ('`' :: name)) := by
  constructor
  . intro h
    by_cases hread : IsReadable name
    . exact Or.inl hread
    . have hbody := body_eq_of_emitsBody hname h hread
      subst hbody
      exact Or.inr ⟨rfl, isInert_of_emitsBody hname h hread⟩
  . rintro (hread | ⟨rfl, hinert⟩)
    . exact emitsBody_of_isReadable hread body
    . exact emitsBody_of_isInert hinert

end

theorem definedName_eq_takeWhile (rest : Text)
    : definedName rest = (trim rest).takeWhile fun c => !(isWhitespace c || c = '(') := by
  apply trim_of_not_isWhitespace
  intro c hc
  have hname := List.mem_takeWhile_imp hc
  simp only [Bool.not_eq_true', Bool.or_eq_false_iff] at hname
  exact hname.1

theorem definedName_clean {rest : Text}
    : ∀ c ∈ definedName rest, isWhitespace c = false ∧ c ≠ '(' := by
  rw [definedName_eq_takeWhile]
  intro c hc
  simpa using List.mem_takeWhile_imp hc

variable (fs order preprocessFile includeDirs currentFile) in
/--
A `define` line makes its macro a function exactly if a parenthesis directly follows the name, and a
macro that is none is replaced by the rest of the line later on, exactly if: a parenthesis that
directly follows the name opens a list that is closed and cut at characters; a parenthesis behind
white space opens no list that is closed; and the scanner reads the name, or the body spells the
invocation and nothing in it can be read.
-/
theorem define_as_written_iff (h : stripDirective (trim line) "define" = some rest)
    (hname : definedName rest ≠ [])
    : (EntryAsWritten fs order preprocessFile includeDirs currentFile line rest
          ∧ ((afterDefinedName rest).head? ≠ some '(' →
            EmitsBody fs order preprocessFile includeDirs currentFile (definedName rest)
              (trim (afterDefinedName rest))))
        ↔
      if (afterDefinedName rest).head? = some '(' then
        OpensParams (afterDefinedName rest) ∧ ¬CutsParams (afterDefinedName rest)
      else
        ¬OpensParams (trim (afterDefinedName rest))
          ∧ (IsReadable (definedName rest)
            ∨ (trim (afterDefinedName rest) = '`' :: definedName rest
                ∧ IsInert ('`' :: definedName rest))) := by
  rw [entryAsWritten_iff h hname, emitsBody_iff definedName_clean]
  by_cases hparen : (afterDefinedName rest).head? = some '('
  . simp [hparen]
  . simp [hparen]

theorem define_as_written_width
    : EntryAsWritten FileSystem.empty Dict.keys (fun _ _ _ => .error .outOfFuel) [] "top.sv".toList
          "`define W 8".toList " W 8".toList
      ∧ EmitsBody FileSystem.empty Dict.keys (fun _ _ _ => .error .outOfFuel) [] "top.sv".toList
          "W".toList "8".toList := by
  have h :=
    define_as_written_iff FileSystem.empty Dict.keys (fun _ _ _ => .error .outOfFuel) []
      "top.sv".toList
    (show stripDirective (trim "`define W 8".toList) "define" = some " W 8".toList
      from rfl) (by decide)
  rw [if_neg (by decide)] at h
  obtain ⟨hentry, hbody⟩ := h.mpr ⟨by decide, Or.inl ⟨by decide, by decide, by decide⟩⟩
  exact ⟨hentry, hbody (by decide)⟩

-- White space before the parenthesis makes no difference
theorem define_parenthesised_body
    : preprocessSvSource FileSystem.empty Dict.keys (fun _ _ _ => .error .outOfFuel) []
        "top.sv".toList
          "`define W (8)\n[`W-1:0]\n".toList Dict.empty []
        = .ok ⟨"// `define W (8)\n[-1:0]\n".toList,
            Dict.empty.insert "W".toList (.function ["8".toList] Dict.empty []), []⟩
      ∧ (afterDefinedName " W (8)".toList).head? = some ' '
      ∧ ¬EntryAsWritten FileSystem.empty Dict.keys (fun _ _ _ => .error .outOfFuel) []
        "top.sv".toList
          "`define W (8)".toList " W (8)".toList := by
  refine ⟨rfl, rfl, ?_⟩
  rw [entryAsWritten_iff rfl (by decide), if_neg (by decide)]
  decide

end SvPreprocessor
end HdlGraph
