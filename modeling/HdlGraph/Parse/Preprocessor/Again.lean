import HdlGraph.Parse.Preprocessor.FieldBlocks
import Mathlib.Data.List.Flatten
import Mathlib.Logic.Function.Iterate

/-!
This module contains what the expansion of UVM macros does to a text that it has expanded before.
The calls stay behind as comments, and the scan does not tell comments from code.
-/

namespace HdlGraph
namespace Preprocessor

open scoped List
open Text Pass2Scanner Pass3Expander

def expandUvm (text : Text) : Text := (expand text (scan text)).1

def site (call : UVMMacroCall) : Text × Nat × List Text := (call.macroName, call.column, call.args)

def commented (s : Text × Nat × List Text) : Text × Nat × List Text := (s.1, s.2.1 + 3, s.2.2)

def sitesOn (line : Text) : List (Text × Nat × List Text) := (callsOn line 0).map site

/-! ## The calls in a comment -/

theorem find?_comment (name line : Text)
    : find? ('`' :: name) ("// ".toList ++ line) = (find? ('`' :: name) line).map fun found =>
        (found.1 + 3, found.2) := by
  have hcons : ∀ c s, c ≠ '`' → c.utf8Size = 1 →
      find? ('`' :: name) (c :: s) = (find? ('`' :: name) s).map fun found =>
        (found.1 + 1, found.2) := by
    intro c s hc hsize
    have hstarts : ¬('`' :: name).isPrefixOf (c :: s) = true := by
      rw [List.isPrefixOf_iff_prefix, List.cons_prefix_cons]
      exact fun h => hc h.1.symm
    rw [find?, if_neg hstarts, hsize]
    simp only [Nat.add_comm 1]
  have hmark : "// ".toList ++ line = '/' :: '/' :: ' ' :: line := rfl
  rw [hmark, hcons _ _ (by decide) (by decide), hcons _ _ (by decide) (by decide),
    hcons _ _ (by decide) (by decide)]
  simp only [Option.map_map, Function.comp_def, Nat.add_assoc]

theorem find?_concat {name : Text} {c : Char} (hc : c ∉ name) (hne : c ≠ '`') (line : Text)
    : find? ('`' :: name) (line ++ [c]) = (find? ('`' :: name) line).map fun found =>
        (found.1, found.2 ++ [c]) := by
  have hmem : c ∉ '`' :: name := by simp [hne, hc]
  induction line with
  | nil =>
    have hstarts : ¬('`' :: name).isPrefixOf [c] = true := by
      rw [List.isPrefixOf_iff_prefix, List.cons_prefix_cons]
      exact fun h => hne h.1.symm
    have hnone : find? ('`' :: name) [c] = none := by
      rw [find?, if_neg hstarts]
      rfl
    rw [List.nil_append, hnone]
    rfl
  | cons d line ih =>
    rw [List.cons_append, find?, find?]
    have hstarts : ('`' :: name).isPrefixOf (d :: (line ++ [c]))
        = ('`' :: name).isPrefixOf (d :: line) := by
      rw [Bool.eq_iff_iff, List.isPrefixOf_iff_prefix, List.isPrefixOf_iff_prefix,
        ← List.cons_append]
      exact prefix_append_cons_iff hmem (d :: line) []
    rw [hstarts]
    split
    . next h =>
      have hlength := (List.isPrefixOf_iff_prefix.mp h).length_le
      rw [Option.map_some, ← List.cons_append, List.drop_append_of_le_length hlength]
    . rw [ih, Option.map_map, Option.map_map]
      rfl

theorem notMem_of_mem_uvmNames {name : Text} {c : Char} (hname : name ∈ uvmNames)
    (hc : isIdentChar c = false) : c ∉ name := by
  intro hmem
  have hall := List.all_eq_true.mp (isIdentChar_of_mem name hname) c hmem
  rw [hc] at hall
  contradiction

theorem extractArgs_fst (text : Text) (i j : Nat)
    : (extractArgs text i).1 = (extractArgs text j).1 := by
  unfold extractArgs
  split <;> rfl

theorem map_site_callsOn (line : Text) (i : Nat) : (callsOn line i).map site = sitesOn line := by
  simp only [sitesOn, callsOn, List.map_filterMap, scanName, Option.map_map,
    Function.comp_def, site]
  simp only [extractArgs_fst _ i 0]

theorem map_site_scan (text : Text) : (scan text).map site = (lines text).flatMap sitesOn := by
  rw [scan_eq, List.map_flatMap]
  have hline : ∀ x : Text × Nat, (callsOn x.1 x.2).map site = sitesOn x.1 :=
    fun x => map_site_callsOn x.1 x.2
  simp only [hline]
  rw [← List.flatMap_map Prod.fst sitesOn, List.zipIdx_map_fst]

theorem sitesOn_comment (line : Text)
    : sitesOn ("// ".toList ++ line) = (sitesOn line).map commented := by
  simp only [sitesOn, callsOn, List.map_filterMap, scanName, find?_comment, Option.map_map,
    Function.comp_def, site, commented]

theorem sitesOn_concat (line : Text) : sitesOn (line ++ ['\r']) = sitesOn line := by
  simp only [sitesOn, callsOn, List.map_filterMap]
  apply List.filterMap_congr
  intro name hname
  have htrim : ∀ rest, trim (rest ++ ['\r']) = trim rest :=
    fun rest => trim_append_right rest (by decide)
  simp only [scanName, find?_concat (notMem_of_mem_uvmNames hname (c := '\r') (by decide))
    (by decide), Option.map_map, Function.comp_def, site, htrim]

/-! ## The lines of the expansion -/

def linesAgain (line : Text) : List Text := lines (kept line) ++ lines (expansions (callsOn line 0))

theorem expansions_congr (line : Text) (i : Nat)
    : expansions (callsOn line i) = expansions (callsOn line 0) := by
  have hexpansions : ∀ calls,
      expansions calls = ((calls.map site).map fun s => expandOne s.1 s.2.2 ++ ['\n']).flatten := by
    intro calls
    rw [List.map_map]
    rfl
  rw [hexpansions, hexpansions, map_site_callsOn, map_site_callsOn]

theorem lines_expandUvm {text : Text} (h : scan text ≠ [])
    : lines (expandUvm text) = (lines text).flatMap linesAgain := by
  rw [expandUvm, (expand_eq (exists_hasCall_of_scan_ne_nil h)).1, lines_flatten]
  . rw [List.map_map, ← List.flatMap_def]
    have hline : ∀ x : Text × Nat, lines (kept x.1 ++ expansions (callsOn x.1 x.2))
        = linesAgain x.1 := by
      intro x
      rw [(endsLine_kept x.1).lines_append, expansions_congr, linesAgain]
    simp only [Function.comp_def, hline]
    rw [← List.flatMap_map Prod.fst linesAgain, List.zipIdx_map_fst]
  . intro s hs
    obtain ⟨x, _, rfl⟩ := List.mem_map.mp hs
    exact (endsLine_kept x.1).append (endsLine_expansions _)

theorem length_lines_expansions (calls : List UVMMacroCall)
    : calls.length ≤ (lines (expansions calls)).length := by
  induction calls with
  | nil => exact Nat.zero_le _
  | cons call rest ih =>
    rw [expansions, List.map_cons, List.flatten_cons, (endsLine_append _).lines_append,
      List.length_append, List.length_cons]
    have hne : lines (expandOne call.macroName call.args ++ ['\n']) ≠ [] := by
      rw [ne_eq, (endsLine_append _).lines_eq_nil_iff]
      simp
    have hpos := List.length_pos_iff.mpr hne
    rw [expansions] at ih
    omega

theorem map_commented_sublist {line : Text} (h : '\n' ∉ line)
    : (sitesOn line).map commented <+ (linesAgain line).flatMap sitesOn := by
  rw [linesAgain, List.flatMap_append]
  apply List.Sublist.trans _ (List.sublist_append_left _ _)
  unfold kept
  split
  . have hline : '\n' ∉ "// ".toList ++ line := by simpa using h
    obtain ⟨line', hlines, heq⟩ := exists_lines_eq hline
    rw [hlines, List.flatMap_singleton, ← sitesOn_comment]
    rcases heq with heq | heq
    . rw [heq]
    . rw [heq, sitesOn_concat]
  . next hcall =>
    have hnil : sitesOn line = [] := by
      rw [sitesOn, callsOn_eq_nil_iff.mpr (Bool.not_eq_true _ ▸ hcall), List.map_nil]
    rw [hnil]
    exact List.nil_sublist _

theorem length_linesAgain (line : Text) : 1 + (sitesOn line).length ≤ (linesAgain line).length := by
  have hkept : lines (kept line) ≠ [] := by
    rw [ne_eq, (endsLine_kept line).lines_eq_nil_iff]
    unfold kept
    split <;> simp
  have hpos := List.length_pos_iff.mpr hkept
  have hexpansions := length_lines_expansions (callsOn line 0)
  rw [linesAgain, List.length_append, sitesOn, List.length_map]
  omega

/-! ## Texts that are expanded again -/

theorem expandUvm_of_scan_eq_nil {text : Text} (h : scan text = []) : expandUvm text = text := by
  rw [expandUvm, expand, if_pos h]

theorem sublist_scan_expandUvm (text : Text)
    : ((scan text).map site).map commented <+ (scan (expandUvm text)).map site := by
  by_cases hscan : scan text = []
  . rw [hscan]
    exact List.nil_sublist _
  . rw [map_site_scan, map_site_scan, lines_expandUvm hscan, List.map_flatMap, List.flatMap_assoc]
    exact List.Sublist.flatMap_right _ fun line hline =>
      map_commented_sublist (newline_not_mem_of_mem_lines hline)

theorem length_lines_expandUvm (text : Text)
    : (lines text).length + (scan text).length ≤ (lines (expandUvm text)).length := by
  by_cases hscan : scan text = []
  . rw [expandUvm_of_scan_eq_nil hscan, hscan, List.length_nil, Nat.add_zero]
  . have hscanLength : (scan text).length
        = ((lines text).map fun line => (sitesOn line).length).sum := by
      rw [← List.length_map (f := site), map_site_scan, List.length_flatMap]
    have hsum (ls : List Text) : ls.length + (ls.map fun line => (sitesOn line).length).sum
        ≤ (ls.flatMap linesAgain).length := by
      induction ls with
      | nil => exact Nat.le_refl _
      | cons line rest ih =>
        have hline := length_linesAgain line
        rw [List.length_cons, List.map_cons, List.sum_cons, List.flatMap_cons, List.length_append]
        omega
    rw [lines_expandUvm hscan, hscanLength]
    exact hsum _

theorem expandUvm_eq_self_iff (text : Text) : expandUvm text = text ↔ scan text = [] := by
  constructor
  . intro h
    have hlength := length_lines_expandUvm text
    rw [h] at hlength
    exact List.length_eq_zero_iff.mp (by omega)
  . exact expandUvm_of_scan_eq_nil

theorem sublist_scan_iterate (text : Text) (n : Nat)
    : ((scan text).map site).map commented^[n] <+ (scan (expandUvm^[n] text)).map site := by
  induction n with
  | zero => rw [Function.iterate_zero, Function.iterate_zero, List.map_id, id]
  | succ n ih =>
    rw [Function.iterate_succ', Function.iterate_succ', ← List.map_map]
    exact (ih.map commented).trans (sublist_scan_expandUvm _)

theorem length_scan_iterate (text : Text) (n : Nat)
    : (scan text).length ≤ (scan (expandUvm^[n] text)).length := by
  have h := (sublist_scan_iterate text n).length_le
  rwa [List.length_map, List.length_map, List.length_map] at h

theorem length_lines_iterate (text : Text) (n : Nat)
    : (lines text).length + n * (scan text).length ≤ (lines (expandUvm^[n] text)).length := by
  induction n with
  | zero =>
    rw [Nat.zero_mul, Nat.add_zero]
    exact Nat.le_refl _
  | succ n ih =>
    have hstep := length_lines_expandUvm (expandUvm^[n] text)
    have hcalls := length_scan_iterate text n
    rw [Function.iterate_succ', Function.comp, Nat.succ_mul]
    omega

theorem scan_iterate_eq_nil_iff (text : Text) (n : Nat) : scan (expandUvm^[n] text) = []
    ↔ scan text = [] := by
  constructor
  . intro h
    have hcalls := length_scan_iterate text n
    rw [h, List.length_nil] at hcalls
    exact List.length_eq_zero_iff.mp (Nat.le_zero.mp hcalls)
  . intro h
    rw [Function.iterate_fixed (expandUvm_of_scan_eq_nil h), h]

theorem map_commented_iterate (n : Nat) (calls : List UVMMacroCall)
    : ((calls.map site).map commented^[n]).map (fun s => (s.1, s.2.2)) = calls.map fun call =>
        (call.macroName, call.args) := by
  rw [List.map_map, List.map_map]
  apply List.map_congr_left
  intro call _
  induction n with
  | zero => rfl
  | succ n ih =>
    rw [Function.iterate_succ']
    exact ih

/--
However often a preprocessed file is expanded again, all calls of its source map are found in it
with their arguments and in their order, and each time it gets longer by at least a line for each of
them. It is left alone if and only if there were no calls in the first place.
-/
theorem preprocess_expands_again (source filePath : Text) (defines : Dict Text Text)
    (includeDirs : List Text)
    : let file := preprocess source filePath defines includeDirs
      ∀ n, let again := expandUvm^[n] file.expandedSource
        ((file.sourceMap.map fun m => (m.macroName, m.macroArgs)) <+ (scan again).map fun call =>
          (call.macroName, call.args))
          ∧ (lines file.expandedSource).length + n * file.sourceMap.length ≤ (lines again).length
          ∧ (expandUvm again = again ↔ file.hasUvmMacros = false) := by
  intro file n again
  let text := (Pass1Standard.run source defines includeDirs).1
  have hcalls : (file.sourceMap.map fun m => (m.macroName, m.macroArgs))
      = (scan text).map fun call => (call.macroName, call.args) := by
    have h := congrArg (List.map Prod.snd) (mapped_expand text)
    rwa [mapped, List.map_map, List.map_map] at h
  have hagain : again = expandUvm^[n + 1] text :=
    (Function.iterate_succ_apply expandUvm n text).symm
  refine ⟨?_, ?_, ?_⟩
  . rw [hcalls, hagain]
    have h := (sublist_scan_iterate text (n + 1)).map fun s => (s.1, s.2.2)
    rwa [map_commented_iterate, List.map_map] at h
  . have hlength := congrArg List.length hcalls
    rw [List.length_map, List.length_map] at hlength
    have hlines := length_lines_iterate (expandUvm text) n
    have hscan := Nat.mul_le_mul_left n (length_scan_iterate text 1)
    rw [hlength]
    exact Nat.le_trans (Nat.add_le_add_left hscan _) hlines
  . rw [expandUvm_eq_self_iff, hagain, scan_iterate_eq_nil_iff]
    exact (decide_eq_false_iff_not.trans not_not).symm

end Preprocessor
end HdlGraph
