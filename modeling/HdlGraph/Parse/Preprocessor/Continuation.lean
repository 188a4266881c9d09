import HdlGraph.Parse.Preprocessor.Define
import HdlGraph.Parse.Preprocessor.Replacement

/-!
This module contains `define` lines that end in a backslash. Neither preprocessor joins lines: the
body of the macro ends with the line, and what follows is processed line by line.
-/

namespace HdlGraph

open Text

namespace SvPreprocessor

variable {π : Type} {fs : FileSystem π} {order : Dict Text Text → List Text}
variable {preprocessFile : π → Dict Text MacroDef → List π → Except Halt (State π)}
  {includeDirs : List π}
variable {currentFile : π} {line rest : Text}

theorem processLines_of_forall_isCode {ls : List Text} (h : ∀ line ∈ ls, IsCode line)
    {top : IfdefState} (hactive : top.active = true) (below : List IfdefState) (post : List Text)
    (st : State π)
    : processLines fs order preprocessFile includeDirs currentFile (ls ++ post) (top :: below) st
        = (ls.mapM fun line => expandInlineMacros order line st.defines).bind fun emitted =>
          processLines fs order preprocessFile includeDirs currentFile post (top :: below)
            (st.push (emitted.map (· ++ ['\n'])).flatten) := by
  induction ls generalizing st with
  | nil => simp [State.push, Except.bind, pure, Except.pure]
  | cons line rest ih =>
    rw [List.cons_append, processLines_of_isCode (h line List.mem_cons_self) hactive,
      List.mapM_cons]
    cases expandInlineMacros order line st.defines with
    | error halt => rfl
    | ok expanded =>
      simp only [Except.bind, bind]
      rw [ih fun line hline => h line (List.mem_cons_of_mem _ hline)]
      simp only [State.push]
      cases rest.mapM fun line => expandInlineMacros order line st.defines with
      | error halt => rfl
      | ok emitted => simp [Except.bind, pure, Except.pure]

theorem findMatchingParen_split {s front back : Text} {parenClose : Nat}
    (h : findMatchingParen s = some parenClose)
    (hsplit : splitAtByte? (parenClose + 1) s = some (front, back)) (hlast : s.getLast? = some '\\')
    : back ≠ [] := by
  rintro rfl
  obtain ⟨hs, hlen⟩ := splitAtByte?_eq_some hsplit
  rw [List.append_nil] at hs
  obtain ⟨after, hafter⟩ := drop_findMatchingParen h
  have hle : s.length ≤ byteLen s := by
    clear h hsplit hlast hs hafter
    induction s with
    | nil => exact Nat.zero_le _
    | cons c cs ih =>
      have := Char.utf8Size_pos c
      rw [List.length_cons, byteLen_cons]
      omega
  rw [← hs] at hlen
  have hlt := findMatchingParen_lt h
  have hlength : s.length = parenClose + 1 := by omega
  have hnil : after = [] := by
    have := congrArg List.length hafter
    rw [List.length_drop, List.length_cons] at this
    exact List.eq_nil_of_length_eq_zero (by omega)
  have hsuffix : [')'] <:+ s := by
    rw [hnil] at hafter
    rw [← hafter]
    exact List.drop_suffix _ _
  rw [← getLast?_of_suffix hsuffix (by simp)] at hlast
  contradiction

theorem parseDefine_body {s t : Text} {macroDef : MacroDef} (hok : parseDefine s = .ok macroDef)
    (hs : s <:+ trim t)
    : macroDef.body <:+ s ∧ (s.getLast? = some '\\' → macroDef.body.getLast? = some '\\') := by
  by_cases hopens : OpensParams s
  . obtain ⟨hhead, hclose⟩ := hopens
    cases s with
    | nil => contradiction
    | cons c ps =>
      cases hhead
      obtain ⟨parenClose, hclose⟩ := Option.isSome_iff_exists.mp hclose
      rw [List.tail_cons] at hclose
      simp only [parseDefine, hclose] at hok
      split at hok
      . next params _ _ body _ hbody =>
        cases hok
        obtain ⟨hps, _⟩ := splitAtByte?_eq_some hbody
        have hsuffix : body <:+ '(' :: ps := by
          rw [hps]
          exact (List.suffix_append _ _).trans (List.suffix_cons _ _)
        refine ⟨(trim_suffix_of_suffix (hsuffix.trans hs)).trans hsuffix, fun hlast => ?_⟩
        have hne : ps ≠ [] := by
          rintro rfl
          contradiction
        have hlast' : ps.getLast? = some '\\' := by
          rw [getLast?_of_suffix (List.suffix_cons _ _) hne]
          exact hlast
        have hbodyNe := findMatchingParen_split hclose hbody hlast'
        apply getLast?_trim _ (by decide)
        rw [getLast?_of_suffix hsuffix hbodyNe]
        exact hlast
      . contradiction
  . rw [parseDefine_of_not_opensParams hopens] at hok
    cases hok
    exact ⟨List.suffix_rfl, id⟩

theorem define_of_line (h : stripDirective (trim line) "define" = some rest) {macroDef : MacroDef}
    (hok : parseDefine (behindDefinedName rest) = .ok macroDef)
    : macroDef.body <:+ trim line
        ∧ ((trim line).getLast? = some '\\' → definedName rest ≠ [] →
            macroDef.body.getLast? = some '\\'
              ∨ (macroDef.body = [] ∧ (definedName rest).getLast? = some '\\')) := by
  have hrest : rest <:+ trim line := by
    rw [exists_of_stripDirective h]
    exact (List.suffix_append _ _).trans (List.suffix_cons _ _)
  have htrim : trim rest <:+ trim line := (trim_suffix_of_suffix hrest).trans hrest
  have hbehind : behindDefinedName rest <:+ trim rest :=
    (List.dropWhile_suffix _).trans (List.dropWhile_suffix _)
  obtain ⟨hbody, hlast⟩ := parseDefine_body hok hbehind
  refine ⟨hbody.trans (hbehind.trans htrim), fun hline hname => ?_⟩
  have hname' := definedName_eq_takeWhile rest
  have hne : trim rest ≠ [] := by
    intro hnil
    rw [hnil] at hname'
    exact hname hname'
  rw [← getLast?_of_suffix htrim hne] at hline
  by_cases hnil : behindDefinedName rest = []
  . right
    rw [hnil] at hbody
    refine ⟨List.suffix_nil.mp hbody, ?_⟩
    have hafter : afterDefinedName rest = [] := by
      by_contra hafter
      have hsuffix : afterDefinedName rest <:+ trim rest := List.dropWhile_suffix _
      have hspace : ∀ c ∈ afterDefinedName rest, isWhitespace c := by
        rw [behindDefinedName_eq_trim] at hnil
        exact trim_eq_nil_iff.mp hnil
      rw [← getLast?_of_suffix hsuffix hafter] at hline
      have := hspace '\\' (List.mem_of_getLast? hline)
      contradiction
    have hall : trim rest = (trim rest).takeWhile fun c => !(isWhitespace c || c = '(') := by
      have hsplit :=
        List.takeWhile_append_dropWhile (p := fun c => !(isWhitespace c || c = '('))
          (l := trim rest)
      rw [show (trim rest).dropWhile _ = [] from hafter, List.append_nil] at hsplit
      exact hsplit.symm
    rw [hname', ← hall]
    exact hline
  . left
    apply hlast
    rw [getLast?_of_suffix hbehind hnil]
    exact hline

end SvPreprocessor

namespace Pass1Standard

open Conditional

variable {line : Text}

theorem kind_of_keyword {keyword : Text}
    (hkeyword : keyword = "`define ".toList ∨ keyword = "`undef ".toList)
    (h : startsWith (trim line) keyword = true)
    : kind line = .plain := by
  obtain ⟨rest, hrest⟩ := List.isPrefixOf_iff_prefix.mp h
  rcases hkeyword with rfl | rfl <;> simp [kind, ← hrest, startsWith, List.isPrefixOf]

theorem keepLine_of_define (h : startsWith (trim line) "`define ".toList = true)
    (hne : argument "`define ".toList (trim line) ≠ []) (st : State)
    : keepLine st line
        = { st with
            defines :=
              st.defines.insert
                ((argument "`define ".toList (trim line)).takeWhile (!isWhitespace ·))
              (trim ((argument "`define ".toList (trim line)).dropWhile (!isWhitespace ·))) } := by
  unfold keepLine
  simp only [h, if_true, hne, ne_eq, not_false_eq_true]
  generalize argument "`define ".toList (trim line) = rest
  by_cases hspace : rest.any isWhitespace = true
  . have hname : trim (rest.takeWhile (!isWhitespace ·)) = rest.takeWhile (!isWhitespace ·) := by
      apply trim_of_not_isWhitespace
      intro c hc
      simpa using List.mem_takeWhile_imp hc
    rw [if_pos hspace, hname]
  . have hword : ∀ c ∈ rest, (!isWhitespace c) = true := by
      intro c hc
      by_contra hwhite
      exact hspace (List.any_eq_true.mpr ⟨c, hc, by simpa using hwhite⟩)
    rw [if_neg hspace, List.takeWhile_eq_self_iff.mpr hword, List.dropWhile_eq_nil_iff.mpr hword]
    rfl

theorem define_of_line (h : startsWith (trim line) "`define ".toList = true)
    (hne : argument "`define ".toList (trim line) ≠ []) (below : List Bool) (st : State)
    : let name := (argument "`define ".toList (trim line)).takeWhile (!isWhitespace ·)
      let value := trim ((argument "`define ".toList (trim line)).dropWhile (!isWhitespace ·))
      step (true :: below) st line
        = (true :: below, { st with defines := st.defines.insert name value })
        ∧ value <:+ trim line
        ∧ ((trim line).getLast? = some '\\' →
            value.getLast? = some '\\' ∨ (value = [] ∧ name.getLast? = some '\\')) := by
  have hmatches := trimStartMatches_suffix "`define ".toList (trim line)
  have hargument : argument "`define ".toList (trim line) <:+ trim line :=
    (trim_suffix_of_suffix hmatches).trans hmatches
  have hstep : step (true :: below) st line = (true :: below, keepLine st line) := by
    rw [step_eq, kind_of_keyword (Or.inl rfl) h]
    rfl
  have hdrop : (argument "`define ".toList (trim line)).dropWhile (!isWhitespace ·) <:+ trim line :=
    (List.dropWhile_suffix _).trans hargument
  refine ⟨hstep.trans (congrArg _ (keepLine_of_define h hne st)),
    (trim_suffix_of_suffix hdrop).trans hdrop, ?_⟩
  intro hlast
  by_cases hnil : (argument "`define ".toList (trim line)).dropWhile (!isWhitespace ·) = []
  . right
    have hsplit :=
      @List.takeWhile_append_dropWhile _ (!isWhitespace ·) (argument "`define ".toList (trim line))
    rw [hnil, List.append_nil] at hsplit
    refine ⟨by rw [hnil]; rfl, ?_⟩
    rw [hsplit, getLast?_of_suffix hargument hne]
    exact hlast
  . left
    apply getLast?_trim _ (by decide)
    rw [getLast?_of_suffix hdrop hnil]
    exact hlast

end Pass1Standard

section

variable {π : Type} (fs : SvPreprocessor.FileSystem π) (order : Dict Text Text → List Text)
variable (preprocessFile : π → Dict Text SvPreprocessor.MacroDef → List π →
  Except SvPreprocessor.Halt (SvPreprocessor.State π))
variable (includeDirs : List π) (currentFile : π)

/--
The macro of a `define` line has its body from this line only, up to and with a backslash at its
end. The lines behind it are processed as if no `define` were open; one that no arm for a directive
takes is emitted.
-/
theorem continued_define_line_by_line (line : Text) (conts post : List Text)
    : (∀ rest macroDef (top : SvPreprocessor.IfdefState) below (st : SvPreprocessor.State π),
          SvPreprocessor.stripDirective (trim line) "define" = some rest →
          SvPreprocessor.definedName rest ≠ [] →
          SvPreprocessor.parseDefine (SvPreprocessor.behindDefinedName rest) = .ok macroDef →
          top.active = true →
          let defines := st.defines.insert (SvPreprocessor.definedName rest) macroDef
          let result := st.result ++ SvPreprocessor.commented line
          let run := SvPreprocessor.processLines fs order preprocessFile includeDirs currentFile
          macroDef.body <:+ trim line
            ∧ (¬SvPreprocessor.OpensParams (SvPreprocessor.behindDefinedName rest) →
              macroDef.body = SvPreprocessor.behindDefinedName rest)
            ∧ (line.getLast? = some '\\' →
              macroDef.body.getLast? = some '\\'
                ∨ (macroDef.body = [] ∧ (SvPreprocessor.definedName rest).getLast? = some '\\'))
            ∧ run (line :: (conts ++ post)) (top :: below) st
              = run (conts ++ post) (top :: below) ⟨result, defines, st.visited⟩
            ∧ (∀ cont ∈ conts, SvPreprocessor.IsCode cont →
                ∀ more (top' : SvPreprocessor.IfdefState) below' st',
                top'.active = true →
                run (cont :: more) (top' :: below') st'
                  = (SvPreprocessor.expandInlineMacros order cont st'.defines).bind fun expanded =>
                    run more (top' :: below') (st'.push (expanded ++ ['\n'])))
            ∧ ((∀ cont ∈ conts, SvPreprocessor.IsCode cont) →
                run (line :: (conts ++ post)) (top :: below) st
                  = (conts.mapM fun cont =>
                    SvPreprocessor.expandInlineMacros order cont defines).bind fun emitted =>
                    run post (top :: below) ⟨result ++ (emitted.map (· ++ ['\n'])).flatten,
                      defines, st.visited⟩))
      ∧ ∀ below (st : Pass1Standard.State),
          startsWith (trim line) "`define ".toList = true →
          Pass1Standard.argument "`define ".toList (trim line) ≠ [] →
          let name :=
            (Pass1Standard.argument "`define ".toList (trim line)).takeWhile (!isWhitespace ·)
          let value :=
            trim ((Pass1Standard.argument "`define ".toList (trim line)).dropWhile
              (!isWhitespace ·))
          value <:+ trim line
            ∧ (line.getLast? = some '\\' →
              value.getLast? = some '\\' ∨ (value = [] ∧ name.getLast? = some '\\'))
            ∧ Pass1Standard.runLines (line :: (conts ++ post)) (true :: below) st
              = Pass1Standard.runLines (conts ++ post) (true :: below)
                  { st with defines := st.defines.insert name value }
            ∧ (∀ cont ∈ conts, Pass1Standard.IsCode cont → ∀ more below' st',
                Pass1Standard.runLines (cont :: more) (true :: below') st'
                  = Pass1Standard.runLines more (true :: below')
                      (st'.pushLine (Pass1Standard.replaced st'.defines cont)))
            ∧ ((∀ cont ∈ conts, Pass1Standard.IsCode cont) →
                Pass1Standard.runLines (line :: (conts ++ post)) (true :: below) st
                  = Pass1Standard.runLines post (true :: below)
                      { st with
                        defines := st.defines.insert name value
                        result := st.result
                          ++ (conts.map fun cont =>
                            Pass1Standard.replaced (st.defines.insert name value) cont
                              ++ ['\n']).flatten }) := by
  have hlast (h : line.getLast? = some '\\') : (trim line).getLast? = some '\\' :=
    getLast?_trim h (by decide)
  constructor
  . intro rest macroDef top below st hdefine hname hparse hactive
    obtain ⟨hsuffix, hbackslash⟩ := SvPreprocessor.define_of_line hdefine hparse
    have hrun (ls : List Text)
        : SvPreprocessor.processLines fs order preprocessFile includeDirs currentFile (line :: ls)
            (top :: below) st
          = SvPreprocessor.processLines fs order preprocessFile includeDirs currentFile ls
            (top :: below)
              ⟨st.result ++ SvPreprocessor.commented line,
                st.defines.insert (SvPreprocessor.definedName rest) macroDef, st.visited⟩ := by
      rw [SvPreprocessor.processLines_of_define hdefine hname hactive, hparse]
      rfl
    refine ⟨hsuffix, ?_, fun h => hbackslash (hlast h) hname, hrun _, ?_, fun hcode => ?_⟩
    . intro hopens
      rw [SvPreprocessor.parseDefine_of_not_opensParams hopens] at hparse
      cases hparse
      rfl
    . intro cont _ hcode more top' below' st' hactive'
      exact SvPreprocessor.processLines_of_isCode hcode hactive' below' more
    . rw [hrun, SvPreprocessor.processLines_of_forall_isCode hcode hactive]
      rfl
  . intro below st hdefine hne
    obtain ⟨hstep, hsuffix, hbackslash⟩ := Pass1Standard.define_of_line hdefine hne below st
    have hrun (ls : List Text)
        : Pass1Standard.runLines (line :: ls) (true :: below) st
          = Pass1Standard.runLines ls (true :: below)
              { st with
                defines := st.defines.insert
                  ((Pass1Standard.argument "`define ".toList (trim line)).takeWhile
                    (!isWhitespace ·))
                  (trim ((Pass1Standard.argument "`define ".toList (trim line)).dropWhile
                    (!isWhitespace ·))) } := by
      rw [Pass1Standard.runLines, hstep]
    refine ⟨hsuffix, fun h => hbackslash (hlast h), hrun _, ?_, fun hcode => ?_⟩
    . intro cont _ hcode more below' st'
      rw [Pass1Standard.runLines, Pass1Standard.step_of_isCode hcode]
    . rw [hrun, Pass1Standard.runLines_of_isCode hcode]

end

theorem continued_define_line_by_line_assign
    : SvPreprocessor.processLines SvPreprocessor.FileSystem.empty Dict.keys
        (fun _ _ _ => .error .outOfFuel) []
          "top.sv".toList ["`define M a \\".toList, "  b".toList] [⟨true, true, true⟩]
          ⟨[], Dict.empty, []⟩
        = .ok ⟨"// `define M a \\\n  b\n".toList,
            Dict.empty.insert "M".toList (.object "a \\".toList), []⟩
      ∧ Pass1Standard.runLines ["`define M a \\".toList, "  b".toList] [true]
          (Pass1Standard.State.init Dict.empty)
        = ⟨"  b\n".toList, Dict.empty.insert "M".toList "a \\".toList, []⟩ := by
  have h :=
    continued_define_line_by_line SvPreprocessor.FileSystem.empty Dict.keys
      (fun _ _ _ => .error .outOfFuel) []
    "top.sv".toList "`define M a \\".toList ["  b".toList] []
  constructor
  . exact ((h.1 " M a \\".toList (.object "a \\".toList) ⟨true, true, true⟩ [] ⟨[], Dict.empty, []⟩
      rfl (by decide) rfl
      rfl).2.2.2.2.2 (by decide)).trans rfl
  . exact ((h.2 [] (Pass1Standard.State.init Dict.empty) rfl (by decide)).2.2.2.2 (by decide)).trans
      rfl

-- The second line of the body is emitted as code, or defines a macro of its own
theorem continued_define_splits
    : SvPreprocessor.preprocessSvSource SvPreprocessor.FileSystem.empty Dict.keys
        (fun _ _ _ => .error .outOfFuel) []
          "top.sv".toList "`define M a \\\n  b\n".toList Dict.empty []
        = .ok ⟨"// `define M a \\\n  b\n".toList,
            Dict.empty.insert "M".toList (.object "a \\".toList), []⟩
      ∧ SvPreprocessor.preprocessSvSource SvPreprocessor.FileSystem.empty Dict.keys
        (fun _ _ _ => .error .outOfFuel) []
          "top.sv".toList "`define M \\\n`define N 1\n".toList Dict.empty []
        = .ok ⟨"// `define M \\\n// `define N 1\n".toList,
            (Dict.empty.insert "M".toList (.object "\\".toList)).insert "N".toList
            (.object "1".toList), []⟩
      ∧ Pass1Standard.run "`define M a \\\n  b\n".toList Dict.empty [] = ("  b\n".toList, [])
      ∧ (Pass1Standard.runLines (lines "`define M a \\\n  b\n".toList) [true]
          (Pass1Standard.State.init Dict.empty)).defines.get? "M".toList = some "a \\".toList := by
  refine ⟨rfl, rfl, by decide, by decide⟩

end HdlGraph
