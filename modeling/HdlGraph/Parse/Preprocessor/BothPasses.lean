import HdlGraph.Parse.Preprocessor.SourceLine

/-!
This module contains the agreement of the two preprocessors on the lines that both read. The
standalone preprocessor always gives what the lines say, pass 1 exactly where no group has lines
behind its taken branch.
-/

namespace HdlGraph

open Text Conditional

namespace SvPreprocessor

def SameTable (names : Dict Text Text) (defines : Dict Text MacroDef) : Prop :=
  ∀ name, defines.get? name = (names.get? name).map .object

namespace SameTable

variable {names : Dict Text Text} {defines : Dict Text MacroDef} (h : SameTable names defines)

include h

theorem containsKey_eq (name : Text) : defines.containsKey name = names.containsKey name := by
  unfold Dict.containsKey
  rw [h name, Option.isSome_map]

theorem insert (name body : Text)
    : SameTable (names.insert name body) (defines.insert name (.object body)) := by
  intro name'
  rw [Dict.get?_insert, Dict.get?_insert, h name']
  split <;> rfl

theorem remove (name : Text) : SameTable (names.remove name) (defines.remove name) := by
  intro name'
  rw [Dict.get?_remove, Dict.get?_remove, h name']
  split <;> rfl

end SameTable

/-! ## Words behind a backtick -/

theorem stripDirective_word {name further : Text} (hword : ∀ c ∈ name, isWordChar c)
    (hspace : further.head?.all isWhitespace = true) {directive : String}
    (hdirective : ∀ c ∈ directive.toList, isWordChar c)
    : stripDirective ('`' :: (name ++ further)) directive = if name
        = directive.toList then some further else none := by
  have hmax : ∀ t : Text, t.head?.all isWhitespace = true → t.head?.all (!isWordChar ·) = true := by
    intro t ht
    cases t with
    | nil => rfl
    | cons c cs =>
      rw [List.head?_cons, Option.all_some] at ht ⊢
      by_contra hnot
      rw [Bool.not_eq_true, Bool.not_eq_false'] at hnot
      rw [isWhitespace_of_isWordChar hnot] at ht
      contradiction
  split
  . next heq =>
    subst heq
    unfold stripDirective stripPrefix?
    rw [← List.cons_append, if_pos (List.isPrefixOf_iff_prefix.mpr (List.prefix_append _ _)),
      List.drop_left, Option.filter_some, if_pos hspace]
  . next hne =>
    rw [Option.eq_none_iff_forall_not_mem]
    intro rest hrest
    have hline := exists_of_stripDirective hrest
    obtain ⟨_, hhead⟩ := Option.filter_eq_some_iff.mp hrest
    have hname := (takeWhile_append_of_head hword (hmax _ hspace)).1
    rw [(List.cons.inj hline).2, (takeWhile_append_of_head hdirective (hmax _ hhead)).1] at hname
    exact hne hname.symm

theorem stripDirective_directive (gap : Blank) (d : Directive) {directive : String}
    (hdirective : ∀ c ∈ directive.toList, isWordChar c)
    : stripDirective (d.text gap) directive
        = if d.keyword = directive then
            some (if d.operand = [] then [] else ' ' :: (gap.text ++ d.operand))
          else
            none := by
  have hword : ∀ keyword ∈ Pass1Standard.directives, ∀ c ∈ keyword.toList, isWordChar c := by decide
  have hspace : (if d.operand = [] then [] else ' ' :: (gap.text ++ d.operand)).head?.all
      isWhitespace = true := by
    split <;> rfl
  rw [Directive.text, stripDirective_word (hword _ d.keyword_mem) hspace hdirective]
  simp only [String.toList_inj]

section

variable {π : Type} (fs : FileSystem π) (order : Dict Text Text → List Text)
variable (preprocessFile : π → Dict Text MacroDef → List π → Except Halt (State π))
variable (includeDirs : List π) (currentFile : π)

section

variable (lead gap trail : Blank) (d : Directive)

theorem kind_directive : kind (lead.text ++ d.text gap ++ trail.text) = d.kind := by
  rw [kind_eq_strip, d.trim_line, stripDirective_directive gap d (by decide),
    stripDirective_directive gap d (by decide), stripDirective_directive gap d (by decide),
    stripDirective_directive gap d (by decide), stripDirective_directive gap d (by decide)]
  cases d <;> simp [Directive.keyword, Directive.kind]

theorem holds_directive (h : d.kind = .opens ∨ d.kind = .elsif) {names : Dict Text Text}
    {defines : Dict Text MacroDef} (hsame : SameTable names defines)
    : holds defines (lead.text ++ d.text gap ++ trail.text) = d.holds names := by
  have hargument := d.trim_space_operand gap
  unfold holds
  rw [d.trim_line, stripDirective_directive gap d (by decide),
    stripDirective_directive gap d (by decide), stripDirective_directive gap d (by decide)]
  cases d with
  | ifdef name =>
    rw [if_pos (show (Directive.ifdef name).keyword = "ifdef" from rfl),
      if_neg (show (Directive.ifdef name).operand ≠ [] from name.ne_nil)]
    exact (congrArg defines.containsKey hargument).trans (hsame.containsKey_eq name.text)
  | ifndef name =>
    rw [if_neg (by simp [Directive.keyword]),
      if_pos (show (Directive.ifndef name).keyword = "ifndef" from rfl),
      if_neg (show (Directive.ifndef name).operand ≠ [] from name.ne_nil)]
    exact congrArg not
      ((congrArg defines.containsKey hargument).trans (hsame.containsKey_eq name.text))
  | elsif name =>
    rw [if_neg (by simp [Directive.keyword]), if_neg (by simp [Directive.keyword]),
      if_pos (show (Directive.elsif name).keyword = "elsif" from rfl),
      if_neg (show (Directive.elsif name).operand ≠ [] from name.ne_nil)]
    exact (congrArg defines.containsKey hargument).trans (hsame.containsKey_eq name.text)
  | _ => simp [Directive.kind] at h

theorem definedName_operand (name : MacroName) (behind : Behind)
    : (name.text ++ behind.text).takeWhile (fun c => !(isWhitespace c || c = '(')) = name.text
      ∧ (name.text ++ behind.text).dropWhile (fun c => !(isWhitespace c || c = '('))
        = behind.text := by
  apply takeWhile_append_of_head
  . intro c hc
    have hword := name.word c hc
    have hparen : c ≠ '(' := by
      rintro rfl
      exact absurd hword (by decide)
    simp [isWhitespace_of_isWordChar hword, hparen]
  . have hgap := behind.gap
    cases hbehind : behind.text with
    | nil => rfl
    | cons c cs =>
      rw [hbehind, List.head?_cons, Option.all_some] at hgap
      simp [hgap]

theorem parseDefine_behind (behind : Behind)
    : parseDefine (trimStart behind.text) = .ok (.object (trim behind.text)) := by
  have htrim : trimStart behind.text = trim behind.text := by
    apply Eq.symm
    apply List.rdropWhile_eq_self_iff.mpr
    intro hne
    have hlast := getLast?_of_suffix (List.dropWhile_suffix _) hne
    have hends := behind.ends _ (hlast.symm.trans (List.getLast?_eq_some_getLast hne))
    exact Bool.eq_false_iff.mp hends
  rw [htrim]
  exact parseDefine_of_not_opensParams fun h => behind.noParams h.1

theorem processLine_directive (h : d.kind = .plain) {names : Dict Text Text} {st : State π}
    (hsame : SameTable names st.defines)
    : ∃ defines, SameTable (d.apply names) defines
        ∧ processLine fs order preprocessFile includeDirs currentFile st
            (lead.text ++ d.text gap ++ trail.text)
          = .ok { st.push (commented (lead.text ++ d.text gap ++ trail.text)) with
              defines := defines } := by
  have hargument := d.trim_space_operand gap
  unfold processLine
  simp only [d.trim_line]
  rw [stripDirective_directive gap d (by decide), stripDirective_directive gap d (by decide)]
  cases d with
  | define name behind =>
    refine ⟨st.defines.insert name.text (.object (trim behind.text)), hsame.insert name.text _, ?_⟩
    obtain ⟨htake, hdrop⟩ := definedName_operand name behind
    rw [if_pos (show (Directive.define name behind).keyword = "define" from rfl),
      if_neg (show (Directive.define name behind).operand ≠ [] from name.append_ne_nil behind.text)]
    dsimp only
    rw [hargument, Directive.operand, htake, hdrop,
      trim_of_not_isWhitespace name.isWhitespace_eq_false, if_neg name.ne_nil, parseDefine_behind]
    rfl
  | undef name =>
    refine ⟨st.defines.remove name.text, hsame.remove name.text, ?_⟩
    rw [if_neg (by simp [Directive.keyword]),
      if_pos (show (Directive.undef name).keyword = "undef" from rfl),
      if_neg (show (Directive.undef name).operand ≠ [] from name.ne_nil)]
    dsimp only
    rw [hargument]
    rfl
  | _ => simp [Directive.kind] at h

end

theorem expandInlineMacros_append_of_not_mem {s : Text} (h : '`' ∉ s) (back : Text)
    (defines : Dict Text MacroDef)
    : expandInlineMacros order (s ++ back) defines
        = (expandInlineMacros order back defines).map (s ++ ·) := by
  apply expandInlineMacros_of_unread
  intro t ht hne named hnamed
  obtain ⟨c, cs, rfl⟩ := List.exists_cons_of_ne_nil hne
  have hc : c ≠ '`' := by
    rintro rfl
    exact h (ht.subset List.mem_cons_self)
  rw [List.cons_append, named?_eq_none hc] at hnamed
  contradiction

theorem expandInlineMacros_of_not_mem {s : Text} (h : '`' ∉ s) (defines : Dict Text MacroDef)
    : expandInlineMacros order s defines = .ok s := by
  have happend := expandInlineMacros_append_of_not_mem order h [] defines
  rw [List.append_nil] at happend
  rw [happend]
  exact congrArg Except.ok (List.append_nil s)

theorem isCode_use (lead : Blank) (name : UsedName) : IsCode (lead.text ++ '`' :: name.text) := by
  have hstrip (directive : String) (hword : ∀ c ∈ directive.toList, isWordChar c)
      (hdirective : isDirective directive.toList = true)
      : stripDirective (trim (lead.text ++ '`' :: name.text)) directive = none := by
    rw [name.trim_line lead, stripDirective_word name.word rfl hword, if_neg]
    intro heq
    have hnot := name.notDirective
    rw [heq, hdirective] at hnot
    contradiction
  have hpass : passThrough.any
        (fun directive => (stripDirective (trim (lead.text ++ '`' :: name.text)) directive).isSome)
      = false := by
    have hall : ∀ directive ∈ passThrough, (∀ c ∈ directive.toList, isWordChar c)
        ∧ isDirective directive.toList = true := by
      decide
    rw [List.any_eq_false]
    intro directive hmem
    rw [hstrip directive (hall directive hmem).1 (hall directive hmem).2]
    exact Bool.false_ne_true
  refine ⟨?_, hstrip "define" (by decide) (by decide), ?_⟩
  . rw [kind_eq_strip, hstrip "ifdef" (by decide) (by decide),
      hstrip "ifndef" (by decide) (by decide), hstrip "elsif" (by decide) (by decide),
      hstrip "else" (by decide) (by decide), hstrip "endif" (by decide) (by decide)]
    rfl
  . unfold isOrdinary
    dsimp only
    rw [hstrip "undef" (by decide) (by decide), hstrip "include" (by decide) (by decide), hpass]
    rfl

theorem expandInlineMacros_use (lead : Blank) (name : UsedName) {names : Dict Text Text}
    {defines : Dict Text MacroDef} (hsame : SameTable names defines)
    : expandInlineMacros order (lead.text ++ '`' :: name.text) defines
        = .ok (lead.text ++ (names.get? name.text).getD ('`' :: name.text)) := by
  have hlead : '`' ∉ lead.text := by
    intro hmem
    exact absurd (lead.white _ hmem) (by decide)
  have hname : '`' ∉ name.text := by
    intro hmem
    exact absurd (name.word _ hmem) (by decide)
  have hnamed :=
    named?_of_word defines name.ne_nil name.word name.notDirective
      (show ([] : Text).head?.all (!isWordChar ·) = true from rfl)
  rw [hsame name.text, List.append_nil] at hnamed
  have hbacktick : expandInlineMacros order ('`' :: name.text) defines
      = .ok ((names.get? name.text).getD ('`' :: name.text)) := by
    cases hget : names.get? name.text with
    | none =>
      rw [hget] at hnamed
      have hunread : ∀ named ∈ named? defines ('`' :: name.text),
          ¬named.macroName.head?.any Char.isAlpha = true := by
        simp [hnamed]
      have hcopied := copied_of_unread order hunread
      rw [expandInlineMacros_of_copied hcopied.1 (by simp [hcopied.2]),
        expandInlineMacros_of_not_mem order hname]
      rfl
    | some body =>
      rw [hget] at hnamed
      have hexpansion : expansion? order defines ('`' :: name.text)
          = some (body, name.text.length + 0) :=
        expansion?_of_expandInvocation hnamed name.alpha (expandInvocation_of_ne _ nofun)
      rw [expandInlineMacros_of_expansion? hexpansion, Nat.add_zero, List.drop_length]
      exact congrArg Except.ok (List.append_nil body)
  rw [expandInlineMacros_append_of_not_mem order hlead, hbacktick]
  rfl

/--
What the lines say is what the standalone preprocessor writes of the selected ones, with the
directives as comments.
-/
theorem writes_reference (visited : List π)
    : Writes SourceLine.reference (dialect fs order preprocessFile includeDirs currentFile)
        SourceLine.text
        fun st r => ∃ defines, SameTable st.defines defines
          ∧ r = .ok ⟨SourceLine.fullText st.written, defines, visited⟩ where
  kind := by
    intro l
    cases l with
    | code line => exact (isCode_of_head? (head?_trim_of_not_mem line.2)).1
    | use lead name => exact (isCode_use lead name).1
    | directive lead gap d trail => exact kind_directive lead gap trail d
  holds := by
    rintro l st _ hkind ⟨defines, hsame, rfl⟩
    cases l with
    | code line => simp [SourceLine.reference] at hkind
    | use lead name => simp [SourceLine.reference] at hkind
    | directive lead gap d trail => exact holds_directive lead gap trail d hkind hsame
  keep := by
    rintro l st _ hkind ⟨defines, hsame, rfl⟩
    cases l with
    | code line =>
      refine ⟨defines, hsame,
        (processLine_of_isCode (isCode_of_head? (head?_trim_of_not_mem line.2))).trans ?_⟩
      rw [expandInlineMacros_of_not_mem order line.2]
      simp [Except.map, SourceLine.reference, SourceLine.keep, SourceLine.fullText, State.push]
    | use lead name =>
      refine ⟨defines, hsame, (processLine_of_isCode (isCode_use lead name)).trans ?_⟩
      rw [expandInlineMacros_use order lead name hsame]
      simp [Except.map, SourceLine.reference, SourceLine.keep, SourceLine.fullText, State.push]
    | directive lead gap d trail =>
      have hbefore : SameTable st.defines
          (State.mk (SourceLine.fullText st.written) defines visited).defines := hsame
      obtain ⟨defines', hsame', hline⟩ :=
        processLine_directive fs order preprocessFile includeDirs currentFile lead gap trail d
        hkind hbefore
      refine ⟨defines', hsame', hline.trans ?_⟩
      simp [SourceLine.reference, SourceLine.keep, SourceLine.fullText, State.push]

/--
On lines that both preprocessors read, the standalone one writes what the selected lines say, with
the directives as comments. Pass 1 keeps these lines exactly if no group has lines behind its taken
branch; it then writes their code, and both leave the same table.
-/
theorem preprocessSvSource_agrees_with_pass1 {source : Text} {b : Block SourceLine}
    (hlines : b.lines.map SourceLine.text = lines source)
    (hspelled : b.Spelled SourceLine.reference) {names : Dict Text Text}
    {defines : Dict Text MacroDef} (hsame : SameTable names defines) (visited : List π)
    : let st := b.after SourceLine.reference true ⟨names, []⟩
      (∃ defines', SameTable st.defines defines'
          ∧ preprocessSvSource fs order preprocessFile includeDirs currentFile source
            defines visited
              = .ok ⟨SourceLine.fullText st.written, defines', visited⟩)
        ∧ (Pass1Standard.keptLines source names = b.kept SourceLine.reference true ⟨names, []⟩
            ↔ b.regular SourceLine.reference ⟨names, []⟩ = true)
        ∧ (b.regular SourceLine.reference ⟨names, []⟩ = true →
            Pass1Standard.runLines (lines source) [true] (.init names)
              = ⟨SourceLine.codeText st.written, st.defines, []⟩) := by
  intro st
  rw [← Block.lines_map] at hlines
  refine ⟨?_, ?_⟩
  . have hwrites := writes_reference fs order preprocessFile includeDirs currentFile visited
    rw [preprocessSvSource_eq_after fs order preprocessFile includeDirs currentFile defines
      visited hlines
      (hwrites.spelled hspelled)]
    exact hwrites.after hspelled true ⟨defines, hsame, rfl⟩
  . have hwrites := Pass1Standard.writes_reference
    have hspelled' := hwrites.spelled hspelled
    have hinit : Pass1Standard.State.init names
        = ⟨SourceLine.codeText (SourceLine.State.mk names []).written,
            (SourceLine.State.mk names []).defines, []⟩ := rfl
    have hregular := hwrites.regular hspelled hinit
    obtain ⟨hkept, _⟩ := Pass1Standard.keptLines_eq_kept_iff names [] hlines hspelled'
    rw [hwrites.kept hspelled true hinit, hregular] at hkept
    refine ⟨hkept, fun hreg => ?_⟩
    have hloop :=
      Pass1Standard.runLines_isLoop.block true [] [] _ (Pass1Standard.State.init names) hspelled'
    rw [List.append_nil, hlines, List.foldr_const, Function.iterate_fixed rfl] at hloop
    rw [hloop, Pass1Standard.runLines, Block.execAfter_of_regular _ _ _ (hregular.trans hreg)]
    exact hwrites.after hspelled true hinit

end

def width : UsedName := ⟨⟨"W".toList, by decide, by decide⟩, by decide, by decide, by decide⟩

def bareDirective (d : Directive) : SourceLine :=
  .directive ⟨[], List.forall_mem_nil _⟩ ⟨[], List.forall_mem_nil _⟩ d ⟨[], List.forall_mem_nil _⟩

def widthBlock : Block SourceLine :=
  .line (bareDirective
    (.define width.toMacroName ⟨" 8".toList, by decide, by rintro c ⟨⟩; rfl, by decide⟩))
    (.group (bareDirective (.ifdef width.toMacroName))
      (.line (.use ⟨"  ".toList, by decide⟩ width) .nil)
      (.otherwise (bareDirective .otherwise) (.line (.code ⟨"x".toList, by decide⟩) .nil)
        (bareDirective .endif))
      .nil)

theorem preprocessSvSource_agrees_with_pass1_width
    : (preprocessSvSource FileSystem.empty Dict.keys (fun _ _ _ => .error .outOfFuel) []
        "top.sv".toList
          "`define W 8\n`ifdef W\n  `W\n`else\nx\n`endif\n".toList Dict.empty []).map State.result
        = .ok "// `define W 8\n  8\n".toList
      ∧ (Pass1Standard.runLines (lines "`define W 8\n`ifdef W\n  `W\n`else\nx\n`endif\n".toList)
          [true]
          (.init Dict.empty)).result = "  8\n".toList := by
  obtain ⟨⟨_, _, hsv⟩, _, hpass1⟩ := preprocessSvSource_agrees_with_pass1 FileSystem.empty Dict.keys
    (fun _ _ _ => .error .outOfFuel) [] "top.sv".toList (b := widthBlock)
    (show widthBlock.lines.map SourceLine.text
      = lines "`define W 8\n`ifdef W\n  `W\n`else\nx\n`endif\n".toList by decide)
    (by decide) (show SameTable Dict.empty Dict.empty from fun _ => rfl) []
  constructor
  . rw [hsv]
    exact congrArg Except.ok
      (show SourceLine.fullText
          (widthBlock.after SourceLine.reference true ⟨Dict.empty, []⟩).written
        = "// `define W 8\n  8\n".toList by decide)
  . rw [hpass1 (by decide)]
    decide

end SvPreprocessor

end HdlGraph
