import HdlGraph.Parse.Preprocessor.Continuation

/-!
This module contains line comments behind a directive. Neither preprocessor removes comments, so
this is about the directives and the states in which the text behind the keyword makes no
difference.
-/

namespace HdlGraph

open Text Conditional

def withComment (line text : Text) : Text := line ++ (" //".toList ++ text)

theorem exists_trim_withComment {line : Text} (h : trim line ≠ []) (text : Text)
    : ∃ c t, trim (withComment line text) = trim line ++ c :: t ∧ (c = ' ' ∨ c ∈ line)
        ∧ isWhitespace c := by
  obtain ⟨trail, t, htrim, htrail⟩ :=
    exists_trim_append h [' '] (show isWhitespace '/' = false by decide) ('/' :: text)
  cases trail with
  | nil => exact ⟨' ', _, htrim, Or.inl rfl, by decide⟩
  | cons c cs =>
    exact ⟨c, _, htrim, Or.inr (htrail c List.mem_cons_self).1, (htrail c List.mem_cons_self).2⟩

theorem exists_gap_withComment {line : Text} (h : trim line ≠ []) (text : Text)
    : ∃ c t gap trail, trim (withComment line text) = trim line ++ c :: t ∧ isWhitespace c
        ∧ c :: t ++ trail = gap ++ ("//".toList ++ text) ∧ gap ≠ [] ∧ (∀ c ∈ gap, isWhitespace c)
        ∧ ∀ c ∈ trail, isWhitespace c := by
  obtain ⟨c, t, htrim, _, hc⟩ := exists_trim_withComment h text
  obtain ⟨gap, trail, heq, hgap, htrail⟩ := exists_trim_append_eq h (" //".toList ++ text)
  refine ⟨c, t, gap ++ [' '], trail, htrim, hc, ?_, by simp, ?_, htrail⟩
  . have heq' : trim line ++ (c :: t ++ trail) = trim line ++ (gap ++ (" //".toList ++ text)) := by
      rw [← heq, ← List.append_assoc, ← htrim]
      rfl
    rw [List.append_cancel_left heq', List.append_assoc]
    rfl
  . intro d hd
    rcases List.mem_append.mp hd with hd | hd
    . exact hgap d hd
    . rw [List.mem_singleton.mp hd]
      decide

namespace SvPreprocessor

variable {line rest : Text}

theorem stripDirective_append {directive : String}
    (hdirective : ∀ c ∈ directive.toList, isWhitespace c = false) (s : Text) {c : Char}
    (hc : isWhitespace c) (t : Text)
    : stripDirective (s ++ c :: t) directive = (stripDirective s directive).map (· ++ c :: t) := by
  have hnot : c ∉ '`' :: directive.toList := by
    intro hmem
    rcases List.mem_cons.mp hmem with rfl | hmem
    . exact absurd hc (by decide)
    . simp [hdirective c hmem] at hc
  unfold stripDirective stripPrefix?
  by_cases hstarts : '`' :: directive.toList <+: s
  . obtain ⟨rest, rfl⟩ := hstarts
    rw [if_pos (List.isPrefixOf_iff_prefix.mpr
      ((prefix_append_cons_iff hnot _ _).mpr (List.prefix_append _ _))),
      if_pos (List.isPrefixOf_iff_prefix.mpr (List.prefix_append _ _)), List.append_assoc,
      List.drop_left, List.drop_left]
    cases rest with
    | nil => simp [Option.filter, hc]
    | cons d ds => by_cases hd : isWhitespace d = true <;> simp [Option.filter, hd]
  . have hstarts' : ¬('`' :: directive.toList) <+: s ++ c :: t := by
      rwa [prefix_append_cons_iff hnot]
    rw [if_neg (by rwa [List.isPrefixOf_iff_prefix]), if_neg (by rwa [List.isPrefixOf_iff_prefix])]
    rfl

theorem kind_eq_strip (line : Text)
    : kind line
        =
      if (stripDirective (trim line) "ifdef").isSome then .opens
      else if (stripDirective (trim line) "ifndef").isSome then .opens
      else if (stripDirective (trim line) "elsif").isSome then .elsif
      else if (stripDirective (trim line) "else").isSome then .otherwise
      else if (stripDirective (trim line) "endif").isSome then .endif
      else .plain := by
  have helse : ((stripDirective (trim line) "else").isSome || decide (trim line = "`else".toList))
      = (stripDirective (trim line) "else").isSome := by
    by_cases h : trim line = "`else".toList
    . rw [h]
      rfl
    . rw [decide_eq_false h, Bool.or_false]
  have hendif : ((stripDirective (trim line) "endif").isSome
      || decide (trim line = "`endif".toList))
      = (stripDirective (trim line) "endif").isSome := by
    by_cases h : trim line = "`endif".toList
    . rw [h]
      rfl
    . rw [decide_eq_false h, Bool.or_false]
  unfold kind
  simp only [helse, hendif]

theorem kind_withComment (line text : Text) : kind (withComment line text) = kind line := by
  by_cases h : trim line = []
  . have hhead : trim (withComment line text) = '/' :: (trim (withComment line text)).tail := by
      unfold withComment
      rw [trim_append_left _ (trim_eq_nil_iff.mp h)]
      obtain ⟨t, ht⟩ :=
        exists_trimEnd_append_cons [] (show isWhitespace '/' = false by decide) ('/' :: text)
      have htrim : trim (" //".toList ++ text) = '/' :: t := ht
      rw [htrim, List.tail_cons]
    have hline : (trim line).head? ≠ some '`' := by
      rw [h]
      exact nofun
    have hline' : (trim (withComment line text)).head? ≠ some '`' := by
      rw [hhead]
      exact fun heq => absurd (Option.some.inj heq) (by decide)
    rw [(isCode_of_head? hline).1, (isCode_of_head? hline').1]
  . obtain ⟨c, t, htrim, _, hc⟩ := exists_trim_withComment h text
    have hstrip (directive : String) (hdirective : ∀ c ∈ directive.toList, isWhitespace c = false)
        : (stripDirective (trim (withComment line text)) directive).isSome
          = (stripDirective (trim line) directive).isSome := by
      rw [htrim, stripDirective_append hdirective _ hc, Option.isSome_map]
    rw [kind_eq_strip, kind_eq_strip, hstrip "ifdef" (by decide), hstrip "ifndef" (by decide),
      hstrip "elsif" (by decide), hstrip "else" (by decide), hstrip "endif" (by decide)]

/-! ## Lines that define a macro -/

theorem parseDefine_append {s : Text} (hopens : OpensParams s) {macroDef : MacroDef}
    (hok : parseDefine s = .ok macroDef) {u x trail t : Text} (hs : s <:+ trim u)
    (hx : x ++ trail = t) (htrail : ∀ c ∈ trail, isWhitespace c)
    : parseDefine (s ++ x) = .ok { macroDef with body := trim (macroDef.body ++ t) } := by
  obtain ⟨hhead, hclose⟩ := hopens
  cases s with
  | nil => contradiction
  | cons c ps =>
    cases hhead
    obtain ⟨parenClose, hclose⟩ := Option.isSome_iff_exists.mp hclose
    rw [List.tail_cons] at hclose
    have hclose' : findMatchingParen (ps ++ x) = some parenClose := go_append_of_matching hclose x
    simp only [parseDefine, hclose] at hok
    split at hok
    . next params _ _ body hparams hbody =>
      cases hok
      obtain ⟨hsplit, _⟩ := splitAtByte?_eq_some hbody
      have hsuffix : body <:+ trim u := by
        apply List.IsSuffix.trans _ hs
        rw [hsplit]
        exact (List.suffix_append _ _).trans (List.suffix_cons _ _)
      rw [List.cons_append]
      simp only [parseDefine, hclose', splitAtByte?_append_right hparams,
        splitAtByte?_append_right hbody]
      rw [trim_append_of_suffix hsuffix hx htrail]
      rfl
    . contradiction

theorem parseDefine_trim_append {after u u' x gap trail text : Text} (hsuffix : after <:+ trim u)
    (hsuffix' : after ++ x <:+ trim u') (hx : x ++ trail = gap ++ ("//".toList ++ text))
    (hspace : ∀ c ∈ gap, isWhitespace c) (htrail : ∀ c ∈ trail, isWhitespace c)
    (hopens : (trim after).head? = some '(' → OpensParams (trim after)) {macroDef : MacroDef}
    (hok : parseDefine (trim after) = .ok macroDef)
    : parseDefine (trim (after ++ x))
        = .ok { macroDef with body := trim (macroDef.body ++ (gap ++ ("//".toList ++ text))) } := by
  by_cases hopen : OpensParams (trim after)
  . have hne : trim after ≠ [] := by
      intro hnil
      rw [hnil] at hopen
      exact absurd hopen.1 (by decide)
    rw [trim_append_of_suffixes hsuffix hsuffix' hne]
    exact parseDefine_append hopen hok ((trim_suffix_of_suffix hsuffix).trans hsuffix) hx htrail
  . have hbehind := trim_append_of_suffix hsuffix hx htrail
    have hhead : (trim (after ++ x)).head? ≠ some '(' := by
      cases htrimAfter : trim after with
      | nil =>
        obtain ⟨t', ht'⟩ :=
          exists_trimEnd_append_cons [] (show isWhitespace '/' = false by decide) ('/' :: text)
        have hcomment : trim ("//".toList ++ text) = '/' :: t' := ht'
        rw [hbehind, htrimAfter, List.nil_append, trim_append_left _ hspace, hcomment]
        exact fun heq => absurd (Option.some.inj heq) (by decide)
      | cons d ds =>
        rw [trim_append_of_suffixes hsuffix hsuffix'
          (by rw [htrimAfter]; exact List.cons_ne_nil _ _), htrimAfter]
        intro heq
        rw [htrimAfter] at hopen hopens
        exact hopen (hopens heq)
    rw [parseDefine_of_not_opensParams hopen] at hok
    cases hok
    rw [parseDefine_of_not_opensParams fun h => hhead h.1, hbehind]
    rfl

theorem define_withComment (h : stripDirective (trim line) "define" = some rest)
    (hname : definedName rest ≠ [])
    (hopens : (behindDefinedName rest).head? = some '(' → OpensParams (behindDefinedName rest))
    {macroDef : MacroDef}
    (hok : parseDefine (behindDefinedName rest) = .ok macroDef) (text : Text)
    : ∃ rest' gap, stripDirective (trim (withComment line text)) "define" = some rest'
        ∧ definedName rest' = definedName rest ∧ gap ≠ [] ∧ (∀ c ∈ gap, isWhitespace c)
        ∧ parseDefine (behindDefinedName rest')
          = .ok { macroDef with
              body := trim (macroDef.body ++ (gap ++ ("//".toList ++ text))) } := by
  have hline := exists_of_stripDirective h
  have hrest : rest <:+ trim line := by
    rw [hline]
    exact (List.suffix_append _ _).trans (List.suffix_cons _ _)
  have hne : trim rest ≠ [] := by
    intro hnil
    apply hname
    unfold definedName
    rw [hnil]
    rfl
  obtain ⟨c, t, gap, trail, htrim, hc, hx, hgap, hspace, htrail⟩ :=
    exists_gap_withComment (show trim line ≠ [] by rw [hline]; exact List.cons_ne_nil _ _) text
  have hstrip : stripDirective (trim (withComment line text)) "define" = some (rest ++ c :: t) := by
    rw [htrim, stripDirective_append (by decide) _ hc, h]
    rfl
  have hrest' : rest ++ c :: t <:+ trim (withComment line text) := by
    obtain ⟨front, hfront⟩ := hrest
    exact ⟨front, by rw [← List.append_assoc, hfront, htrim]⟩
  have htrimRest : trim (rest ++ c :: t) = trim rest ++ c :: t :=
    trim_append_of_suffixes hrest hrest' hne
  have hhead : (c :: t).head?.all (!(fun c => !(isWhitespace c || c = '(')) ·) = true := by
    simp [hc]
  obtain ⟨htake, hdrop⟩ := takeWhile_append_head (trim rest) hhead
  have hafter : afterDefinedName (rest ++ c :: t) = afterDefinedName rest ++ c :: t := by
    unfold afterDefinedName
    rw [htrimRest, hdrop]
  have hsuffix : afterDefinedName rest <:+ trim rest := List.dropWhile_suffix _
  have hsuffix' : afterDefinedName rest ++ c :: t <:+ trim (rest ++ c :: t) := by
    rw [← hafter]
    exact List.dropWhile_suffix _
  refine ⟨rest ++ c :: t, gap, hstrip, ?_, hgap, hspace, ?_⟩
  . rw [definedName_eq_takeWhile, definedName_eq_takeWhile, htrimRest, htake]
  . rw [behindDefinedName_eq_trim, hafter]
    rw [behindDefinedName_eq_trim] at hopens hok
    exact parseDefine_trim_append hsuffix hsuffix' hx hspace htrail hopens hok

/-! ## Inactive regions -/

def Alike (f g : IfdefState) : Prop := f = g ∨ (f.parentActive = false ∧ g.parentActive = false)

theorem Alike.active_eq {f g : IfdefState} (h : Alike f g) : f.active = g.active := by
  cases h with
  | inl h => rw [h]
  | inr h => simp [IfdefState.active, h.1, h.2]

theorem next_parentActive (top : IfdefState) (condActive : Bool)
    : (top.next condActive).parentActive = top.parentActive := by
  unfold IfdefState.next
  split <;> rfl

theorem Alike.next {f g : IfdefState} (h : Alike f g) (condActive : Bool)
    : Alike (f.next condActive) (g.next condActive) := by
  cases h with
  | inl h => exact Or.inl (by rw [h])
  | inr h => exact Or.inr (by rw [next_parentActive, next_parentActive]; exact h)

section

variable {π : Type} (fs : FileSystem π) (order : Dict Text Text → List Text)
variable (preprocessFile : π → Dict Text MacroDef → List π → Except Halt (State π))
  (includeDirs : List π)
variable (currentFile : π)

theorem processLines_of_alike {top top' : IfdefState} {below below' : List IfdefState}
    (htop : Alike top top') (hbelow : List.Forall₂ Alike below below') (ls : List Text)
    (st : State π)
    : processLines fs order preprocessFile includeDirs currentFile ls (top :: below) st
        = processLines fs order preprocessFile includeDirs currentFile ls (top' :: below') st := by
  induction ls generalizing top top' below below' st with
  | nil => rfl
  | cons line rest ih =>
    rw [processLines_eq, processLines_eq]
    dsimp only
    cases kind line with
    | plain =>
      simp only [htop.active_eq]
      split
      . cases processLine fs order preprocessFile includeDirs currentFile st line with
        | error halt => rfl
        | ok st' => exact ih htop hbelow st'
      . exact ih htop hbelow st
    | opens =>
      apply ih _ (.cons htop hbelow)
      exact Or.inl (by unfold IfdefState.enter; rw [htop.active_eq])
    | elsif => exact ih (htop.next _) hbelow st
    | otherwise => exact ih (htop.next _) hbelow st
    | endif =>
      cases hbelow with
      | nil => exact ih htop .nil st
      | cons h hs => exact ih h hs st

-- What must hold so that a comment behind the line makes no difference
def CommentIsIgnored (top : IfdefState) (defines : Dict Text MacroDef) (line line' : Text) : Prop :=
  match kind line with
  | .plain => top.active = false
  | .opens => top.active = false ∨ holds defines line = holds defines line'
  | .elsif =>
    top.parentActive = false ∨ top.hasMatched = true ∨ holds defines line = holds defines line'
  | .otherwise | .endif => True

theorem processLines_withComment {top : IfdefState} {st : State π} {line text : Text}
    (h : CommentIsIgnored top st.defines line (withComment line text)) (below : List IfdefState)
    (post : List Text)
    : processLines fs order preprocessFile includeDirs currentFile (withComment line text :: post)
          (top :: below) st
        = processLines fs order preprocessFile includeDirs currentFile (line :: post)
          (top :: below) st := by
  have hsame : List.Forall₂ Alike below below := List.forall₂_same.mpr fun f _ => Or.inl rfl
  rw [processLines_eq, processLines_eq, kind_withComment]
  dsimp only
  unfold CommentIsIgnored at h
  cases hkind : kind line with
  | plain =>
    rw [hkind] at h
    simp only [show top.active = false from h]
    rfl
  | opens =>
    rw [hkind] at h
    apply processLines_of_alike _ _ _ _ _ _ (.cons (Or.inl rfl) hsame)
    cases h with
    | inl hactive => exact Or.inr ⟨hactive, hactive⟩
    | inr hholds => exact Or.inl (by rw [hholds])
  | elsif =>
    rw [hkind] at h
    apply processLines_of_alike _ _ _ _ _ _ hsame
    obtain hparent | hmatched | hholds := h
    . exact Or.inr (by rw [next_parentActive, next_parentActive]; exact ⟨hparent, hparent⟩)
    . exact Or.inl (by simp [IfdefState.next, hmatched])
    . exact Or.inl (by rw [hholds])
  | otherwise => rfl
  | endif => rfl

/-! ## Lines that remove a macro -/

def State.behind (front : Text) (st : State π) : State π := { st with result := front ++ st.result }

theorem processLine_behind (front : Text) (st : State π) (line : Text)
    : processLine fs order preprocessFile includeDirs currentFile (st.behind front) line
        = (processLine fs order preprocessFile includeDirs currentFile st line).map
          (State.behind front) := by
  unfold processLine
  simp only [State.behind]
  cases stripDirective (trim line) "define" with
  | some rest =>
    dsimp only
    split
    . simp [Except.map, State.push, State.behind]
    . cases parseDefine _ <;> simp [Except.map, Except.bind, bind, pure, Except.pure,
        State.push, State.behind]
  | none =>
    cases stripDirective (trim line) "undef" with
    | some rest => simp [Except.map, State.push, State.behind]
    | none =>
      cases stripDirective (trim line) "include" with
      | some rest =>
        dsimp only
        split
        . cases preprocessFile _ st.defines st.visited <;>
            simp [Except.map, Except.bind, bind, pure, Except.pure, State.behind]
        . simp [Except.map, State.push, State.behind]
      | none =>
        dsimp only
        split
        . simp [Except.map, State.push, State.behind]
        . cases expandInlineMacros order line st.defines <;>
            simp [Except.map, Except.bind, bind, pure, Except.pure, State.push, State.behind]

theorem processLines_behind (front : Text) (ls : List Text) (top : IfdefState)
    (below : List IfdefState) (st : State π)
    : processLines fs order preprocessFile includeDirs currentFile ls (top :: below)
          (st.behind front)
        = (processLines fs order preprocessFile includeDirs currentFile ls (top :: below) st).map
          (State.behind front) := by
  induction ls generalizing top below st with
  | nil => rfl
  | cons line rest ih =>
    rw [processLines_cons, processLines_cons, show (st.behind front).defines = st.defines from rfl,
      processLine_behind]
    split
    . exact ih _ _ st
    . cases processLine fs order preprocessFile includeDirs currentFile st line with
      | error halt => rfl
      | ok st' => exact ih top below st'

theorem processLines_of_undef {top : IfdefState} (hactive : top.active = true) {line rest : Text}
    (h : stripDirective (trim line) "undef" = some rest) {st : State π}
    (hget : st.defines.containsKey (trim rest) = false) (below : List IfdefState) (post : List Text)
    : processLines fs order preprocessFile includeDirs currentFile (line :: post) (top :: below) st
        = (processLines fs order preprocessFile includeDirs currentFile post (top :: below)
            ⟨[], st.defines, st.visited⟩).map (State.behind (st.result ++ commented line)) := by
  have htrim := exists_of_stripDirective h
  have hkind : kind line = .plain := by
    simp [kind, htrim, stripDirective, stripPrefix?]
  have hdefine : stripDirective (trim line) "define" = none := by
    simp [htrim, stripDirective, stripPrefix?]
  have hline : processLine fs order preprocessFile includeDirs currentFile st line
      = .ok (State.behind (st.result ++ commented line) ⟨[], st.defines, st.visited⟩) := by
    unfold processLine
    simp only [hdefine, h, Dict.remove_of_containsKey_eq_false hget]
    simp [State.push, State.behind]
  rw [processLines_eq, hkind]
  simp only [hactive, if_true]
  rw [hline]
  exact processLines_behind _ _ _ _ _ _ _ _ _ _

end

end SvPreprocessor

namespace Pass1Standard

variable {line : Text}

theorem trim_ne_nil (h : kind line ≠ .plain) : trim line ≠ [] := by
  intro hnil
  apply h
  unfold kind
  rw [hnil]
  decide

theorem kind_withComment (hblank : ∀ c ∈ line, isWhitespace c → c = ' ' ∨ c = '\t')
    (h : kind line ≠ .plain) (text : Text)
    : kind (withComment line text) = kind line := by
  obtain ⟨c, t, htrim, hc, hspace⟩ := exists_trim_withComment (trim_ne_nil h) text
  have hc' : c = ' ' ∨ c = '\t' := hc.elim Or.inl fun hmem => hblank c hmem hspace
  unfold kind at h ⊢
  rw [htrim]
  generalize trim line = s at *
  by_cases hifdef : startsWith s "`ifdef ".toList = true
  . obtain ⟨r, rfl⟩ := List.isPrefixOf_iff_prefix.mp hifdef
    simp [startsWith, List.isPrefixOf]
  . by_cases hifndef : startsWith s "`ifndef ".toList = true
    . obtain ⟨r, rfl⟩ := List.isPrefixOf_iff_prefix.mp hifndef
      simp [startsWith, List.isPrefixOf]
    . by_cases helsif : startsWith s "`elsif ".toList = true
      . obtain ⟨r, rfl⟩ := List.isPrefixOf_iff_prefix.mp helsif
        simp [startsWith, List.isPrefixOf]
      . by_cases helse : s = "`else".toList
        . subst helse
          rcases hc' with rfl | rfl <;> simp [startsWith, List.isPrefixOf]
        . by_cases helseBlank : startsWith s "`else ".toList = true
          . obtain ⟨r, rfl⟩ := List.isPrefixOf_iff_prefix.mp helseBlank
            simp [startsWith, List.isPrefixOf]
          . by_cases helseTab : startsWith s "`else\t".toList = true
            . obtain ⟨r, rfl⟩ := List.isPrefixOf_iff_prefix.mp helseTab
              simp [startsWith, List.isPrefixOf]
            . by_cases hendif : startsWith s "`endif".toList = true
              . obtain ⟨r, rfl⟩ := List.isPrefixOf_iff_prefix.mp hendif
                simp [startsWith, List.isPrefixOf]
              . have hother : ¬(decide (s = "`else".toList) || startsWith s "`else ".toList
                  || startsWith s "`else\t".toList) = true := by
                  rw [decide_eq_false helse, Bool.eq_false_iff.mpr helseBlank,
                    Bool.eq_false_iff.mpr helseTab]
                  decide
                rw [if_neg hifdef, if_neg hifndef, if_neg helsif, if_neg hother, if_neg hendif] at h
                exact absurd rfl h

theorem startsWith_withComment {keyword : Text} (hne : keyword ≠ [])
    (h : startsWith (trim line) keyword = true) (text : Text)
    : startsWith (trim (withComment line text)) keyword = true := by
  have hstarts := List.isPrefixOf_iff_prefix.mp h
  have htrim : trim line ≠ [] := by
    intro hnil
    rw [hnil, List.prefix_nil] at hstarts
    exact hne hstarts
  obtain ⟨c, t, heq, _⟩ := exists_trim_withComment htrim text
  rw [heq]
  exact List.isPrefixOf_iff_prefix.mpr (hstarts.trans (List.prefix_append _ _))

def CommentIsIgnored (top : Bool) (below : List Bool) (st : State) (line line' : Text) : Prop :=
  match kind line with
  | .plain =>
    top = false
      ∧ (startsWith (trim line) "`define ".toList = true
          ∨ startsWith (trim line) "`undef ".toList = true)
  | .opens => top = false ∨ holds st line = holds st line'
  | .elsif => below.head? = some false ∨ holds st line = holds st line'
  | .otherwise | .endif => True

theorem step_withComment (hblank : ∀ c ∈ line, isWhitespace c → c = ' ' ∨ c = '\t') {top : Bool}
    {below : List Bool} {st : State} {text : Text}
    (h : CommentIsIgnored top below st line (withComment line text))
    : step (top :: below) st (withComment line text) = step (top :: below) st line := by
  rw [step_eq, step_eq]
  unfold CommentIsIgnored at h
  cases hkind : kind line with
  | plain =>
    rw [hkind] at h
    have hplain : kind (withComment line text) = .plain := by
      obtain ⟨_, hdefine | hundef⟩ := h
      . exact kind_of_keyword (Or.inl rfl) (startsWith_withComment (by decide) hdefine text)
      . exact kind_of_keyword (Or.inr rfl) (startsWith_withComment (by decide) hundef text)
    rw [hplain, h.1]
    rfl
  | opens =>
    rw [hkind] at h
    rw [kind_withComment hblank (by rw [hkind]; exact nofun), hkind]
    cases h with
    | inl htop => simp [htop]
    | inr hholds => simp only [hholds]
  | elsif =>
    rw [hkind] at h
    rw [kind_withComment hblank (by rw [hkind]; exact nofun), hkind]
    cases h with
    | inl hparent => simp [hparent]
    | inr hholds => simp only [hholds]
  | otherwise => rw [kind_withComment hblank (by rw [hkind]; exact nofun), hkind]
  | endif => rw [kind_withComment hblank (by rw [hkind]; exact nofun), hkind]

theorem keepLine_define_withComment (h : startsWith (trim line) "`define ".toList = true)
    (hne : argument "`define ".toList (trim line) ≠ [])
    (hself : argument "`define ".toList (trim line) ≠ "`define".toList) (text : Text) (st : State)
    : ∃ gap, gap ≠ [] ∧ (∀ c ∈ gap, isWhitespace c)
        ∧ keepLine st (withComment line text)
          = { st with
              defines :=
                st.defines.insert
                  ((argument "`define ".toList (trim line)).takeWhile (!isWhitespace ·))
                (trim (trim ((argument "`define ".toList (trim line)).dropWhile (!isWhitespace ·))
                  ++ (gap ++ ("//".toList ++ text)))) } := by
  have hline : trim line ≠ [] := by
    intro hnil
    rw [hnil] at h
    contradiction
  obtain ⟨c, t, gap, trail, htrim, hc, hx, hgap, hspace, htrail⟩ :=
    exists_gap_withComment hline text
  have hrest := trimStartMatches_suffix "`define ".toList (trim line)
  -- the comment makes no further copy of the keyword
  have hstop : ¬"`define ".toList <+: trimStartMatches "`define ".toList (trim line) ++ c :: t := by
    intro hstarts
    have hkeyword : c ∉ "`define".toList := by
      intro hmem
      have hword : ∀ d ∈ "`define".toList, isWhitespace d = false := by decide
      simp [hword c hmem] at hc
    have hfirst := (List.prefix_append "`define".toList [' ']).trans hstarts
    obtain ⟨r, hr⟩ := (prefix_append_cons_iff hkeyword _ _).mp hfirst
    cases r with
    | nil =>
      apply hself
      unfold argument
      rw [← hr]
      decide
    | cons d ds =>
      apply not_prefix_trimStartMatches (show "`define ".toList ≠ [] by decide) (trim line)
      rw [← hr] at hstarts ⊢
      rw [show "`define ".toList = "`define".toList ++ [' '] from rfl, List.append_assoc] at hstarts
      rw [show "`define ".toList = "`define".toList ++ [' '] from rfl]
      have hd := (List.cons_prefix_cons.mp ((List.prefix_append_right_inj _).mp hstarts)).1
      rw [hd]
      exact ⟨ds, List.append_assoc _ _ _⟩
  have hrest' : trimStartMatches "`define ".toList (trim line) ++ c :: t
      <:+ trim (withComment line text) := by
    obtain ⟨front, hfront⟩ := hrest
    exact ⟨front, by rw [← List.append_assoc, hfront, htrim]⟩
  have hargument : argument "`define ".toList (trim (withComment line text))
      = argument "`define ".toList (trim line) ++ c :: t := by
    unfold argument
    rw [htrim, trimStartMatches_append (by decide) hstop, trim_append_of_suffixes hrest hrest' hne]
  have hhead : (c :: t).head?.all (fun d => !!isWhitespace d) = true := by simp [hc]
  obtain ⟨htake, hdrop⟩ := takeWhile_append_head (argument "`define ".toList (trim line)) hhead
  have hsuffix : (argument "`define ".toList (trim line)).dropWhile (!isWhitespace ·)
      <:+ trim (trimStartMatches "`define ".toList (trim line)) := List.dropWhile_suffix _
  refine ⟨gap, hgap, hspace, ?_⟩
  rw [keepLine_of_define (startsWith_withComment (by decide) h text) (by rw [hargument]; simp),
    hargument, htake, hdrop, trim_append_of_suffix hsuffix hx htrail]

theorem kind_endif_append (h : kind line = .endif) (text : Text)
    : kind (line ++ ("//".toList ++ text)) = .endif := by
  obtain ⟨trail, t, htrim, _⟩ := exists_trim_append (trim_ne_nil (by rw [h]; exact nofun)) []
    (show isWhitespace '/' = false by decide) ('/' :: text)
  have hstarts : startsWith (trim line) "`endif".toList = true := by
    unfold kind at h
    dsimp only at h
    repeat' split at h
    all_goals first | assumption | contradiction
  obtain ⟨r, hr⟩ := List.isPrefixOf_iff_prefix.mp hstarts
  unfold kind
  rw [show trim (line ++ ("//".toList ++ text)) = _ from htrim, ← hr]
  simp [startsWith, List.isPrefixOf]

theorem step_of_undef (h : startsWith (trim line) "`undef ".toList = true) {st : State}
    (hget : st.defines.containsKey (argument "`undef ".toList (trim line)) = false)
    (below : List Bool)
    : step (true :: below) st line = (true :: below, st) := by
  have hdefine : startsWith (trim line) "`define ".toList = false := by
    obtain ⟨r, hr⟩ := List.isPrefixOf_iff_prefix.mp h
    rw [← hr]
    simp [startsWith, List.isPrefixOf]
  rw [step_eq, kind_of_keyword (Or.inr rfl) h]
  unfold keepLine
  simp only [hdefine, h, if_true, Bool.false_eq_true, if_false,
    Dict.remove_of_containsKey_eq_false hget]

end Pass1Standard

section

variable {π : Type} (fs : SvPreprocessor.FileSystem π) (order : Dict Text Text → List Text)
variable (preprocessFile : π → Dict Text SvPreprocessor.MacroDef → List π →
  Except SvPreprocessor.Halt (SvPreprocessor.State π))
variable (includeDirs : List π) (currentFile : π)

/--
A comment behind a directive makes no difference behind `else` and `endif`, in inactive regions, and
behind a condition that is defined with the comment exactly if it is without. Behind an active
`define` it becomes part of the body, and of nothing else; behind an active `undef` of names that
are not defined it changes the echo of the line only.
-/
theorem trailing_comment_ignored (line text : Text) (post : List Text)
    : (let run := SvPreprocessor.processLines fs order preprocessFile includeDirs currentFile;
        (∀ (top : SvPreprocessor.IfdefState) below (st : SvPreprocessor.State π),
            SvPreprocessor.CommentIsIgnored top st.defines line (withComment line text) →
            run (withComment line text :: post) (top :: below) st
              = run (line :: post) (top :: below) st)
          ∧ (∀ rest macroDef (top : SvPreprocessor.IfdefState) below (st : SvPreprocessor.State π),
              SvPreprocessor.stripDirective (trim line) "define" = some rest →
              SvPreprocessor.definedName rest ≠ [] →
              ((SvPreprocessor.behindDefinedName rest).head? = some '(' →
                SvPreprocessor.OpensParams (SvPreprocessor.behindDefinedName rest)) →
              SvPreprocessor.parseDefine (SvPreprocessor.behindDefinedName rest) = .ok macroDef →
              top.active = true →
              ∃ gap, gap ≠ [] ∧ (∀ c ∈ gap, isWhitespace c)
                ∧ run (line :: post) (top :: below) st
                  = run post (top :: below) ⟨st.result ++ SvPreprocessor.commented line,
                      st.defines.insert (SvPreprocessor.definedName rest) macroDef, st.visited⟩
                ∧ run (withComment line text :: post) (top :: below) st
                  = run post (top :: below)
                    ⟨st.result ++ SvPreprocessor.commented (withComment line text),
                      st.defines.insert (SvPreprocessor.definedName rest)
                        { macroDef with
                          body := trim (macroDef.body ++ (gap ++ ("//".toList ++ text))) },
                      st.visited⟩)
          ∧ ∀ rest rest' (top : SvPreprocessor.IfdefState) below (st : SvPreprocessor.State π),
              SvPreprocessor.stripDirective (trim line) "undef" = some rest →
              SvPreprocessor.stripDirective (trim (withComment line text)) "undef" = some rest' →
              st.defines.containsKey (trim rest) = false →
              st.defines.containsKey (trim rest') = false →
              top.active = true →
              ∃ out : Except SvPreprocessor.Halt (SvPreprocessor.State π),
                run (line :: post) (top :: below) st
                    = out.map (SvPreprocessor.State.behind
                        (st.result ++ SvPreprocessor.commented line))
                  ∧ run (withComment line text :: post) (top :: below) st
                    = out.map (SvPreprocessor.State.behind
                        (st.result ++ SvPreprocessor.commented (withComment line text))))
      ∧ ((∀ top below st, (∀ c ∈ line, isWhitespace c → c = ' ' ∨ c = '\t') →
              Pass1Standard.CommentIsIgnored top below st line (withComment line text) →
              Pass1Standard.runLines (withComment line text :: post) (top :: below) st
                = Pass1Standard.runLines (line :: post) (top :: below) st)
          ∧ (∀ top below st, Pass1Standard.kind line = .endif →
              Pass1Standard.runLines ((line ++ ("//".toList ++ text)) :: post) (top :: below) st
                = Pass1Standard.runLines (line :: post) (top :: below) st)
          ∧ (∀ below (st : Pass1Standard.State), startsWith (trim line) "`define ".toList = true →
              let arg := Pass1Standard.argument "`define ".toList (trim line)
              let value := trim (arg.dropWhile (!isWhitespace ·))
              arg ≠ [] → arg ≠ "`define".toList →
              ∃ gap, gap ≠ [] ∧ (∀ c ∈ gap, isWhitespace c)
                ∧ Pass1Standard.runLines (line :: post) (true :: below) st
                  = Pass1Standard.runLines post (true :: below)
                      { st with
                        defines := st.defines.insert (arg.takeWhile (!isWhitespace ·)) value }
                ∧ Pass1Standard.runLines (withComment line text :: post) (true :: below) st
                  = Pass1Standard.runLines post (true :: below)
                      { st with
                        defines := st.defines.insert (arg.takeWhile (!isWhitespace ·))
                          (trim (value ++ (gap ++ ("//".toList ++ text)))) })
          ∧ ∀ below (st : Pass1Standard.State), startsWith (trim line) "`undef ".toList = true →
              st.defines.containsKey (Pass1Standard.argument "`undef ".toList (trim line)) = false →
              st.defines.containsKey
                (Pass1Standard.argument "`undef ".toList (trim (withComment line text))) = false →
              Pass1Standard.runLines (withComment line text :: post) (true :: below) st
                = Pass1Standard.runLines (line :: post) (true :: below) st) := by
  refine ⟨⟨?_, ?_, ?_⟩, ?_, ?_, ?_, ?_⟩
  . intro top below st h
    exact SvPreprocessor.processLines_withComment _ _ _ _ _ h below post
  . intro rest macroDef top below st hdefine hname hopens hok hactive
    obtain ⟨rest', gap, hdefine', hname', hgap, hspace, hok'⟩ :=
      SvPreprocessor.define_withComment hdefine hname hopens hok text
    refine ⟨gap, hgap, hspace, ?_, ?_⟩
    . rw [SvPreprocessor.processLines_of_define hdefine hname hactive, hok]
      rfl
    . rw [SvPreprocessor.processLines_of_define hdefine' (by rwa [hname']) hactive, hok', hname']
      rfl
  . intro rest rest' top below st hundef hundef' hget hget' hactive
    exact ⟨_, SvPreprocessor.processLines_of_undef _ _ _ _ _ hactive hundef hget below post,
      SvPreprocessor.processLines_of_undef _ _ _ _ _ hactive hundef' hget' below post⟩
  . intro top below st hblank h
    rw [Pass1Standard.runLines, Pass1Standard.runLines, Pass1Standard.step_withComment hblank h]
  . intro top below st h
    rw [Pass1Standard.runLines, Pass1Standard.runLines, Pass1Standard.step_eq,
      Pass1Standard.step_eq, h, Pass1Standard.kind_endif_append h]
  . intro below st hdefine arg value hne hself
    obtain ⟨gap, hgap, hspace, hkeep⟩ :=
      Pass1Standard.keepLine_define_withComment hdefine hne hself text st
    have hdefine' := Pass1Standard.startsWith_withComment (by decide) hdefine text
    refine ⟨gap, hgap, hspace, ?_, ?_⟩
    . rw [Pass1Standard.runLines, Pass1Standard.step_eq,
        Pass1Standard.kind_of_keyword (Or.inl rfl) hdefine]
      simp only [if_true]
      rw [Pass1Standard.keepLine_of_define hdefine hne]
    . rw [Pass1Standard.runLines, Pass1Standard.step_eq,
        Pass1Standard.kind_of_keyword (Or.inl rfl) hdefine']
      simp only [if_true]
      rw [hkeep]
  . intro below st hundef hget hget'
    have hundef' := Pass1Standard.startsWith_withComment (by decide) hundef text
    rw [Pass1Standard.runLines, Pass1Standard.runLines, Pass1Standard.step_of_undef hundef hget,
      Pass1Standard.step_of_undef hundef' hget']

end

theorem trailing_comment_ignored_width
    : SvPreprocessor.processLines SvPreprocessor.FileSystem.empty Dict.keys
        (fun _ _ _ => .error .outOfFuel) []
            "top.sv".toList [withComment "`endif".toList "c".toList, "x".toList]
            [⟨true, false, false⟩, ⟨true, true, true⟩]
            ⟨[], Dict.empty, []⟩
          = .ok ⟨"x\n".toList, Dict.empty, []⟩
      ∧ (∃ gap, gap ≠ [] ∧ (∀ c ∈ gap, isWhitespace c)
          ∧ SvPreprocessor.processLines SvPreprocessor.FileSystem.empty Dict.keys
            (fun _ _ _ => .error .outOfFuel) []
              "top.sv".toList [withComment "`define W 8".toList "w".toList] [⟨true, true, true⟩]
              ⟨[], Dict.empty, []⟩
            = .ok ⟨"// `define W 8 //w\n".toList,
                Dict.empty.insert "W".toList (.object (trim ("8".toList ++ (gap ++ "//w".toList)))),
                  []⟩)
      ∧ Pass1Standard.runLines ["`endif//c".toList, "x".toList] [false, true]
          (Pass1Standard.State.init Dict.empty)
        = ⟨"x\n".toList, Dict.empty, []⟩ := by
  refine ⟨?_, ?_, ?_⟩
  . have h :=
      trailing_comment_ignored SvPreprocessor.FileSystem.empty Dict.keys
        (fun _ _ _ => .error .outOfFuel) []
      "top.sv".toList "`endif".toList "c".toList ["x".toList]
    exact (h.1.1 ⟨true, false, false⟩ [⟨true, true, true⟩] ⟨[], Dict.empty, []⟩ trivial).trans rfl
  . have h :=
      trailing_comment_ignored SvPreprocessor.FileSystem.empty Dict.keys
        (fun _ _ _ => .error .outOfFuel) []
      "top.sv".toList "`define W 8".toList "w".toList []
    obtain ⟨gap, hgap, hspace, _, hrun⟩ :=
      h.1.2.1 " W 8".toList (.object "8".toList) ⟨true, true, true⟩ []
      ⟨[], Dict.empty, []⟩ rfl (by decide) (by decide) rfl rfl
    exact ⟨gap, hgap, hspace, hrun⟩
  . have h :=
      trailing_comment_ignored SvPreprocessor.FileSystem.empty Dict.keys
        (fun _ _ _ => .error .outOfFuel) []
      "top.sv".toList "`endif".toList "c".toList ["x".toList]
    exact (h.2.2.1 false [true] (Pass1Standard.State.init Dict.empty) rfl).trans rfl

-- The name of a condition, the body of a macro and the keyword of a directive include the comment
theorem trailing_comment_taken
    : SvPreprocessor.preprocessSvSource SvPreprocessor.FileSystem.empty Dict.keys
        (fun _ _ _ => .error .outOfFuel) []
          "top.sv".toList "`define A\n`ifdef A\nx\n`endif\n".toList Dict.empty []
        = .ok ⟨"// `define A\nx\n".toList, Dict.empty.insert "A".toList (.object []), []⟩
      ∧ SvPreprocessor.preprocessSvSource SvPreprocessor.FileSystem.empty Dict.keys
        (fun _ _ _ => .error .outOfFuel) []
          "top.sv".toList "`define A\n`ifdef A // c\nx\n`endif\n".toList Dict.empty []
        = .ok ⟨"// `define A\n".toList, Dict.empty.insert "A".toList (.object []), []⟩
      ∧ SvPreprocessor.preprocessSvSource SvPreprocessor.FileSystem.empty Dict.keys
        (fun _ _ _ => .error .outOfFuel) []
          "top.sv".toList "`define W 8 // w\n".toList Dict.empty []
        = .ok ⟨"// `define W 8 // w\n".toList,
            Dict.empty.insert "W".toList (.object "8 // w".toList), []⟩
      ∧ Pass1Standard.run "`define A\n`ifdef A\nx\n`else\ny\n`endif\n".toList Dict.empty []
        = ("x\n".toList, [])
      ∧ Pass1Standard.run "`define A\n`ifdef A // c\nx\n`else\ny\n`endif\n".toList Dict.empty []
        = ("y\n".toList, [])
      ∧ Pass1Standard.run "`define A\n`ifdef A\nx\n`else//c\ny\n`endif\n".toList Dict.empty []
        = ("x\n`else//c\ny\n".toList, []) := by
  refine ⟨rfl, rfl, rfl, ?_, ?_, ?_⟩
  all_goals decide

end HdlGraph
