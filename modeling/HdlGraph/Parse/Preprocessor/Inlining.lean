import Mathlib.Algebra.Order.Group.Nat
import HdlGraph.Library.Inclusion
import HdlGraph.Parse.Preprocessor.Comments

/-!
This module contains the meaning of include files: the preprocessor writes for a file what it writes
for the lines of the file with those of its include files in place of the directives. Every file has
to be well nested on its own, and none may come up within itself.
-/

namespace HdlGraph
namespace SvPreprocessor

open Text Conditional

variable {π : Type}

/-! ## The lines with the include files in place -/

-- The nesting of the lines is a matter of their kinds alone
def kindsOnly : Dialect Text Unit := ⟨kind, fun _ _ => false, fun s _ => s⟩

def WellNested (ls : List Text) : Prop := ∃ b : Block Text, b.lines = ls ∧ b.Spelled kindsOnly

def FileSystem.withoutIncludes (fs : FileSystem π) : FileSystem π :=
  { fs with isPresent := fun _ => false }

def State.shown (st : State π) : Text × Dict Text MacroDef := (st.result, st.defines)

def FileSystem.canonical (fs : FileSystem π) (filePath : π) : π :=
  (fs.canonicalize filePath).getD filePath

/--
The lines of a file in which each directive that names a file is replaced by the lines of that file,
found in the same way. The files in `visited` are those that are being expanded.
-/
inductive Inlined (fs : FileSystem π) (includeDirs : List π) : List π → π → List Text → Prop where
  | unread {visited : List π} {filePath : π} (hnew : fs.canonical filePath ∉ visited)
      (hread : fs.readToString filePath = none)
    : Inlined fs includeDirs visited filePath []
  | file {visited : List π} {filePath : π} {source : Text} (unit : Text → List Text)
      (hnew : fs.canonical filePath ∉ visited) (hread : fs.readToString filePath = some source)
      (hnested : WellNested (lines source))
      (hunit : ∀ line ∈ lines source,
        ∀ path, includedFile fs includeDirs filePath line = some path →
        Inlined fs includeDirs (visited ++ [fs.canonical filePath]) path (unit line))
    : Inlined fs includeDirs visited filePath ((lines source).flatMap fun line =>
        if (includedFile fs includeDirs filePath line).isSome then unit line else [line])

/-! ## One line -/

section

variable {fs fs' : FileSystem π} {order : Dict Text Text → List Text}
variable {preprocessFile preprocessFile' : π → Dict Text MacroDef → List π → Except Halt (State π)}
variable {includeDirs includeDirs' : List π} {currentFile currentFile' : π}

theorem shown_push {st st' : State π} (h : st.shown = st'.shown) (s : Text)
    : (st.push s).shown = (st'.push s).shown := by
  unfold State.shown State.push at *
  simp_all

theorem processLine_shown {line : Text}
    (hincluded : includedFile fs includeDirs currentFile line = none)
    (hincluded' : includedFile fs' includeDirs' currentFile' line = none) {st st' : State π}
    (h : st.shown = st'.shown)
    : (processLine fs order preprocessFile includeDirs currentFile st line).map State.shown
        = (processLine fs' order preprocessFile' includeDirs' currentFile' st' line).map
          State.shown := by
  have hdefines : st.defines = st'.defines := congrArg Prod.snd h
  have hresult : st.result = st'.result := congrArg Prod.fst h
  unfold includedFile at hincluded hincluded'
  unfold processLine
  dsimp only at *
  cases hdefine : stripDirective (trim line) "define" with
  | some rest =>
    dsimp only
    split
    . exact congrArg Except.ok (shown_push h _)
    . cases parseDefine _ with
      | error halt => rfl
      | ok macroDef =>
        simp [Except.map, bind, Except.bind, pure, Except.pure, State.shown, State.push,
          hdefines, hresult]
  | none =>
    cases hundef : stripDirective (trim line) "undef" with
    | some rest => simp [Except.map, State.shown, State.push, hdefines, hresult]
    | none =>
      simp only [hdefine, hundef, Option.isSome_none, Bool.or_self, Bool.false_eq_true, if_false]
        at hincluded hincluded'
      cases hinclude : stripDirective (trim line) "include" with
      | some rest =>
        rw [hinclude, Option.bind_some] at hincluded hincluded'
        simp only [hincluded, hincluded']
        exact congrArg Except.ok (shown_push h _)
      | none =>
        dsimp only
        split
        . exact congrArg Except.ok (shown_push h _)
        . rw [hdefines]
          cases expandInlineMacros order line st'.defines with
          | error halt => rfl
          | ok expanded => exact congrArg Except.ok (shown_push h _)

theorem includedFile_withoutIncludes (fs : FileSystem π) (includeDirs : List π)
    (currentFile : π) (line : Text)
    : includedFile fs.withoutIncludes includeDirs currentFile line = none := by
  unfold includedFile
  dsimp only
  split
  . rfl
  . cases stripDirective (trim line) "include" with
    | none => rfl
    | some rest =>
      have hfilter : ∀ (p : Option π), p.filter fs.withoutIncludes.isPresent = none := by
        intro p
        cases p <;> rfl
      have hfind : ∀ (ps : List π), ps.find? fs.withoutIncludes.isPresent = none := by
        intro ps
        exact List.find?_eq_none.mpr fun _ _ => Bool.false_ne_true
      rw [Option.bind_some, resolveInclude, hfilter, hfind]
      rfl

theorem kind_eq_plain_of_included {line : Text} {path : π}
    (h : includedFile fs includeDirs currentFile line = some path)
    : kind line = .plain := by
  obtain ⟨_, _, rest, hrest, _⟩ := includedFile_eq_some h
  simp [kind, exists_of_stripDirective hrest, stripDirective, stripPrefix?]

/-! ## One block -/

theorem spelled_dialect {b : Block Text} (h : b.Spelled kindsOnly)
    : b.Spelled (dialect fs order preprocessFile includeDirs currentFile) := by
  refine Block.spelled_congr (d := kindsOnly) ?_ h
  rfl

theorem map_bind_behind {x y : Except Halt (State π)} (h : x.map State.shown = y.map State.shown)
    (front : Text)
    : (x.bind fun st => .ok { st with result := front ++ st.result }).map State.shown
        = (y.map (State.behind front)).map State.shown := by
  have hbehind : ∀ z : Except Halt (State π),
      (z.map (State.behind front)).map State.shown = (z.map State.shown).map fun shown =>
        (front ++ shown.1, shown.2) := by
    intro z
    cases z <;> rfl
  have hbind : (x.bind fun st => .ok { st with result := front ++ st.result })
      = x.map (State.behind front) := by
    cases x <;> rfl
  rw [hbind, hbehind, hbehind, h]

theorem holds_of_shown {s s' : Except Halt (State π)}
    (h : s.map State.shown = s'.map State.shown) (line : Text)
    : (dialect fs order preprocessFile includeDirs currentFile).holds s line
        = (dialect fs' order preprocessFile' includeDirs' currentFile').holds s' line := by
  cases s with
  | error halt =>
    cases s' with
    | error halt' => rfl
    | ok st' => cases h
  | ok st =>
    cases s' with
    | error halt' => cases h
    | ok st' =>
      have hshown : st.shown = st'.shown := Except.ok.inj h
      have hdefines : st.defines = st'.defines := congrArg Prod.snd hshown
      simp only [dialect, hdefines]

variable (fs fs' order preprocessFile preprocessFile' includeDirs includeDirs' currentFile
    currentFile') in
theorem after_error (b : Block Text) (active : Bool) (halt : Halt)
    : b.after (dialect fs order preprocessFile includeDirs currentFile) active (.error halt)
        = .error halt := by
  let d := dialect fs order preprocessFile includeDirs currentFile
  have hgoes : GoesWith d d (fun _ => none) b.lines fun s s' => s = .error halt ∧ s = s' := by
    constructor
    . intro l _ s s' hs
      rw [hs.2]
    . intro l _ s s' hs
      obtain ⟨rfl, rfl⟩ := hs
      exact ⟨rfl, rfl⟩
  let s : Except Halt (State π) := .error halt
  have hs : s = .error halt ∧ s = s := ⟨rfl, rfl⟩
  exact (hgoes.block active hs).1

end

section Flat

variable (fs : FileSystem π) (order : Dict Text Text → List Text)
variable (preprocessFile : π → Dict Text MacroDef → List π → Except Halt (State π))
variable (includeDirs : List π) (currentFile : π)

def flat : Dialect Text (Except Halt (State π)) :=
  dialect fs.withoutIncludes order preprocessFile includeDirs currentFile

def ExpandsTo [DecidableEq π] (filePath : π) (visited : List π) (b : Block Text) (bound : Nat)
    : Prop :=
  ∀ fuel, bound ≤ fuel → ∀ defines,
    (preprocessSvFile fs order includeDirs fuel filePath defines visited).map State.shown
      = (b.after (flat fs order preprocessFile includeDirs currentFile) true
          (.ok ⟨[], defines, visited⟩)).map State.shown

variable {fs order preprocessFile includeDirs currentFile}

theorem flat_after_shown (b : Block Text) (active : Bool) {s s' : Except Halt (State π)}
    (h : s.map State.shown = s'.map State.shown)
    : (b.after (flat fs order preprocessFile includeDirs currentFile) active s).map State.shown
        = (b.after (flat fs order preprocessFile includeDirs currentFile) active s').map
          State.shown := by
  let d := flat fs order preprocessFile includeDirs currentFile
  have hnone := includedFile_withoutIncludes fs includeDirs currentFile
  have hgoes : GoesWith d d (fun _ => none) b.lines fun s s' =>
    s.map State.shown = s'.map State.shown := by
    constructor
    . exact fun l _ s s' hs => holds_of_shown hs l
    . intro l _ s s' hs
      cases s <;> cases s'
      . exact hs
      . cases hs
      . cases hs
      . exact processLine_shown (hnone l) (hnone l) (Except.ok.inj hs)
  have hblock := hgoes.block active h
  rwa [Block.inlined_none] at hblock

theorem flat_after_behind (b : Block Text) (active : Bool) (front : Text)
    (s : Except Halt (State π))
    : b.after (flat fs order preprocessFile includeDirs currentFile) active
          (s.map (State.behind front))
        = (b.after (flat fs order preprocessFile includeDirs currentFile) active s).map
          (State.behind front) := by
  let d := flat fs order preprocessFile includeDirs currentFile
  have hgoes : GoesWith d d (fun _ => none) b.lines fun s s' =>
    s = s'.map (State.behind front) := by
    constructor
    . intro l _ s s' hs
      subst hs
      cases s' <;> rfl
    . intro l _ s s' hs
      subst hs
      cases s' with
      | error halt => rfl
      | ok st =>
        exact processLine_behind fs.withoutIncludes order preprocessFile includeDirs
          currentFile front st l
  have hs : s.map (State.behind front) = s.map (State.behind front) := rfl
  have hblock := hgoes.block active hs
  rwa [Block.inlined_none] at hblock

end Flat

/-! ## One file -/

theorem plainUnits_included (fs : FileSystem π) (includeDirs : List π) (filePath : π)
    (blocks : Text → Block Text)
    : PlainUnits kindsOnly fun line => (includedFile fs includeDirs filePath line).map fun _ =>
        blocks line := by
  intro line hline
  rw [Option.map_eq_none_iff]
  cases hincluded : includedFile fs includeDirs filePath line with
  | none => rfl
  | some path => exact absurd (kind_eq_plain_of_included hincluded) hline

section

variable [DecidableEq π] {fs : FileSystem π} {order : Dict Text Text → List Text}
variable {preprocessFile : π → Dict Text MacroDef → List π → Except Halt (State π)}
variable {includeDirs : List π} {currentFile : π}

theorem goesWith_of_expandsTo {filePath : π} {visited : List π} {ls : List Text}
    {blocks : Text → Block Text} {fuel : Nat}
    (hblocks : ∀ line ∈ ls, ∀ path, includedFile fs includeDirs filePath line = some path →
      ExpandsTo fs order preprocessFile includeDirs currentFile path visited (blocks line) fuel)
    : GoesWith (dialect fs order (preprocessSvFile fs order includeDirs fuel) includeDirs filePath)
        (flat fs order preprocessFile includeDirs currentFile)
        (fun line => (includedFile fs includeDirs filePath line).map fun _ => blocks line) ls
        fun s s' => s.map State.shown = s'.map State.shown ∧ ∀ st, s = .ok st →
          st.visited = visited := by
  have hrestores : Restores (preprocessSvFile fs order includeDirs fuel) :=
    preprocessSvFile_restores fuel
  constructor
  . exact fun line _ s s' hs => holds_of_shown hs.1 line
  . rintro line hline (halt | st) (halt' | st') ⟨hshown, hvisited⟩
    . cases hshown
      refine ⟨?_, nofun⟩
      cases includedFile fs includeDirs filePath line with
      | none => rfl
      | some path =>
        rw [Option.map_some, Option.elim_some, flat, after_error]
        rfl
    . cases hshown
    . cases hshown
    . have hvisited : st.visited = visited := hvisited st rfl
      have hshown : st.shown = st'.shown := Except.ok.inj hshown
      constructor
      . cases hincluded : includedFile fs includeDirs filePath line with
        | none => exact processLine_shown hincluded (includedFile_withoutIncludes _ _ _ _) hshown
        | some path =>
          have hfile := hblocks line hline path hincluded fuel (Nat.le_refl fuel) st.defines
          have hstart : (Except.ok st' : Except Halt (State π)).map State.shown
              = ((Except.ok ⟨[], st.defines, visited⟩ : Except Halt (State π)).map
                  (State.behind st.result)).map
                State.shown := by
            simpa [Except.map, State.behind, State.shown] using hshown.symm
          change (processLine fs order (preprocessSvFile fs order includeDirs fuel) includeDirs
            filePath st line).map _ = _
          rw [processLine_of_included hincluded, hvisited, map_bind_behind hfile, Option.map_some,
            Option.elim_some, flat_after_shown _ _ hstart, flat_after_behind]
      . intro st'' hst''
        rw [← hvisited]
        exact hrestores.processLine hst''

variable (order preprocessFile currentFile) in
theorem Inlined.exists_expandsTo {visited : List π} {filePath : π} {ls : List Text}
    (h : Inlined fs includeDirs visited filePath ls)
    : ∃ b : Block Text, b.lines = ls ∧ b.Spelled kindsOnly
        ∧ ∃ bound, ExpandsTo fs order preprocessFile includeDirs currentFile filePath
          visited b bound := by
  induction h with
  | @unread visited filePath hnew hread =>
    refine ⟨.nil, rfl, trivial, 1, ?_⟩
    intro fuel hfuel defines
    obtain ⟨fuel, rfl⟩ := Nat.exists_eq_add_one.mpr hfuel
    rw [preprocessSvFile]
    unfold FileSystem.canonical at hnew
    simp only [hnew, if_false, hread]
    rfl
  | @file visited filePath source unit hnew hread hnested hunit ih =>
    obtain ⟨b, hlines, hspelled⟩ := hnested
    have hblock : ∀ line, ∃ b' : Block Text, b'.Spelled kindsOnly
        ∧ ∃ bound, line ∈ lines source → ∀ path,
        includedFile fs includeDirs filePath line = some path → b'.lines = unit line
          ∧ ExpandsTo fs order preprocessFile includeDirs currentFile path
            (visited ++ [fs.canonical filePath]) b' bound := by
      intro line
      by_cases hline : line ∈ lines source
      . cases hincluded : includedFile fs includeDirs filePath line with
        | none =>
          refine ⟨.nil, trivial, 0, ?_⟩
          intro _ path hpath
          cases hpath
        | some path =>
          obtain ⟨b', hlines', hspelled', bound, hbound⟩ := ih line hline path hincluded
          refine ⟨b', hspelled', bound, fun _ path' hpath' => ?_⟩
          rw [← Option.some.inj hpath']
          exact ⟨hlines', hbound⟩
      . exact ⟨.nil, trivial, 0, fun hmem => absurd hmem hline⟩
    choose blocks hblocks bounds hbounds using hblock
    let unit' := fun line => (includedFile fs includeDirs filePath line).map fun _ => blocks line
    refine ⟨b.inlined unit', ?_, ?_, ((lines source).map bounds).sum + 1, ?_⟩
    . rw [Block.lines_inlined (plainUnits_included fs includeDirs filePath blocks) b hspelled,
        hlines]
      apply List.flatMap_congr
      intro line hline
      rw [inlinedLines]
      cases hincluded : includedFile fs includeDirs filePath line with
      | none => rfl
      | some path => exact (hbounds line hline path hincluded).1
    . apply Block.spelled_inlined _ hspelled
      intro line b' hb'
      obtain ⟨path, _, rfl⟩ := Option.map_eq_some_iff.mp hb'
      exact hblocks line
    . intro fuel hfuel defines
      obtain ⟨fuel, rfl⟩ := Nat.exists_eq_add_one_of_ne_zero (by omega : fuel ≠ 0)
      have hexpands : ∀ line ∈ b.lines,
          ∀ path, includedFile fs includeDirs filePath line = some path →
          ExpandsTo fs order preprocessFile includeDirs currentFile path
            (visited ++ [fs.canonical filePath]) (blocks line)
            fuel := by
        intro line hline path hincluded fuel' hfuel'
        rw [hlines] at hline
        have hle : bounds line ≤ ((lines source).map bounds).sum :=
          List.le_sum_of_mem (List.mem_map_of_mem hline)
        exact (hbounds line hline path hincluded).2 fuel' (by omega)
      have hgoes := goesWith_of_expandsTo hexpands
      have hstart : (Except.ok ⟨[], defines, visited ++ [fs.canonical filePath]⟩ : Except Halt
          (State π)).map State.shown
            = (Except.ok ⟨[], defines, visited⟩ : Except Halt (State π)).map State.shown
          ∧ ∀ st, (Except.ok ⟨[], defines, visited ++ [fs.canonical filePath]⟩ : Except Halt
              (State π)) = .ok st →
            st.visited = visited ++ [fs.canonical filePath] := by
        refine ⟨rfl, fun st hst => ?_⟩
        cases hst
        rfl
      have hafter := (hgoes.block true hstart).1
      have hsource :=
        preprocessSvSource_eq_after fs order (preprocessSvFile fs order includeDirs fuel)
          includeDirs filePath
        defines (visited ++ [fs.canonical filePath]) hlines (spelled_dialect hspelled)
      rw [preprocessSvFile]
      unfold FileSystem.canonical at *
      simp only [hnew, if_false, hread, hsource]
      rw [← hafter]
      generalize Block.after _ _ b _ = s
      cases s <;> rfl

/--
The preprocessor expands a file to what it writes for the lines of the file with the lines of its
include files in their places, and leaves the define table that these lines leave, if each of the
files is well nested and none of them comes up within itself.
-/
theorem preprocessSvFile_eq_preprocessSvSource_inlined {visited : List π} {filePath : π}
    {ls : List Text} (h : Inlined fs includeDirs visited filePath ls) {text : Text}
    (htext : lines text = ls)
    : ∃ bound, ∀ fuel, bound ≤ fuel → ∀ defines,
        (preprocessSvFile fs order includeDirs fuel filePath defines visited).map State.shown
          = (preprocessSvSource fs.withoutIncludes order preprocessFile includeDirs currentFile text
              defines visited).map
            State.shown := by
  obtain ⟨b, hlines, hspelled, bound, hbound⟩ := h.exists_expandsTo order preprocessFile currentFile
  refine ⟨bound, fun fuel hfuel defines => ?_⟩
  rw [hbound fuel hfuel defines,
    preprocessSvSource_eq_after fs.withoutIncludes order preprocessFile includeDirs currentFile
    defines visited (hlines.trans htext.symm) (spelled_dialect hspelled)]
  rfl

end

def FileSystem.pair : FileSystem Text where
  canonicalize path := some path
  readToString path :=
    if path = "top.sv".toList then some "`ifndef B\n`include <b.sv>\n`endif\nx `B\n".toList
    else if path = "b.sv".toList then some "`define B 1\ny\n".toList
    else none
  isPresent path := path = "b.sv".toList
  parent _ := some []
  join parent path := parent ++ path
  display path := path

def pairLines : List Text :=
  ["`ifndef B".toList, "`define B 1".toList, "y".toList, "`endif".toList, "x `B".toList]

theorem inlined_pair : Inlined FileSystem.pair [] [] "top.sv".toList pairLines := by
  have htop : WellNested (lines "`ifndef B\n`include <b.sv>\n`endif\nx `B\n".toList) :=
    ⟨.group "`ifndef B".toList (.line "`include <b.sv>".toList .nil) (.endif "`endif".toList)
      (.line "x `B".toList .nil),
      by decide, by decide⟩
  have hincluded : WellNested (lines "`define B 1\ny\n".toList) :=
    ⟨.line "`define B 1".toList (.line "y".toList .nil), by decide, by decide⟩
  refine .file (fun _ => ["`define B 1".toList, "y".toList]) (by decide) rfl htop ?_
  intro line hline path hpath
  have hpaths : ∀ line ∈ lines "`ifndef B\n`include <b.sv>\n`endif\nx `B\n".toList,
      (includedFile FileSystem.pair [] "top.sv".toList line).all (· = "b.sv".toList) := by
    decide
  have hone := hpaths line hline
  rw [hpath, Option.all_some, decide_eq_true_eq] at hone
  subst hone
  refine .file (fun _ => []) (by decide) rfl hincluded ?_
  intro line hline path hpath
  have hnone : ∀ line ∈ lines "`define B 1\ny\n".toList,
      includedFile FileSystem.pair [] "b.sv".toList line = none := by
    decide
  rw [hnone line hline] at hpath
  contradiction

theorem preprocessSvFile_eq_preprocessSvSource_inlined_pair
    : ∃ bound, ∀ fuel, bound ≤ fuel → ∀ defines,
        (preprocessSvFile FileSystem.pair Dict.keys [] fuel "top.sv".toList defines []).map
        State.shown
          = (preprocessSvSource FileSystem.pair.withoutIncludes Dict.keys
              (fun _ _ _ => .error .outOfFuel) [] "top.sv".toList
              "`ifndef B\n`define B 1\ny\n`endif\nx `B\n".toList defines []).map State.shown :=
  preprocessSvFile_eq_preprocessSvSource_inlined inlined_pair (by decide)

end SvPreprocessor
end HdlGraph
