import HdlGraph.Parse.Preprocessor.Pass3Expander

/-!
This module contains what pass 3 keeps of a source outside the expansions: the lines without a call
as they are, and the lines with a call as comments.
-/

namespace HdlGraph
namespace Pass3Expander

open Text Pass2Scanner

def outside (st : Expansion) : Text :=
  outsideFrom (st.2.map fun m => (m.expandedStart, m.expandedEnd)) 0 st.1

def callsOn (line : Text) (i : Nat) : List UVMMacroCall := uvmNames.filterMap (scanName line i)

def hasCall (line : Text) : Bool := uvmNames.any fun name => contains line ('`' :: name)

def kept (line : Text) : Text :=
  if hasCall line then "// ".toList ++ line ++ ['\n'] else line ++ ['\n']

def expansions (calls : List UVMMacroCall) : Text :=
  (calls.map fun call => expandOne call.macroName call.args ++ ['\n']).flatten

/-! ## The calls of a line -/

theorem line_of_mem_callsOn {line : Text} {i : Nat} {call : UVMMacroCall}
    (h : call ∈ callsOn line i)
    : call.line = i + 1 := by
  simp only [callsOn, List.mem_filterMap, scanName, Option.map_eq_some_iff] at h
  obtain ⟨name, _, found, _, rfl⟩ := h
  rfl

theorem callsOn_eq_nil_iff {line : Text} {i : Nat}
    : callsOn line i = [] ↔ hasCall line = false := by
  simp [callsOn, hasCall, List.filterMap_eq_nil_iff, scanName, contains]

theorem scan_eq (source : Text)
    : scan source = (lines source).zipIdx.flatMap fun (line, i) => callsOn line i := rfl

theorem scan_eq_nil_iff {source : Text}
    : scan source = [] ↔ ∀ line ∈ lines source, hasCall line = false := by
  rw [scan_eq, List.flatMap_eq_nil_iff]
  constructor
  . intro h line hline
    obtain ⟨i, hi, rfl⟩ := List.getElem_of_mem hline
    exact callsOn_eq_nil_iff.mp
      (h ((lines source)[i], i) (List.mk_mem_zipIdx_iff_getElem?.mpr (List.getElem?_eq_getElem hi)))
  . intro h x hx
    exact callsOn_eq_nil_iff.mpr (h x.1 (List.fst_mem_of_mem_zipIdx hx))

theorem exists_hasCall_of_scan_ne_nil {source : Text} (h : scan source ≠ [])
    : ∃ line ∈ lines source, hasCall line = true := by
  by_contra hnone
  apply h
  rw [scan_eq_nil_iff]
  intro line hline
  by_contra hcall
  exact hnone ⟨line, hline, by simpa using hcall⟩

theorem lt_line_of_mem {ls : List Text} {i : Nat} {call : UVMMacroCall}
    (h : call ∈ (ls.zipIdx i).flatMap fun (line, i) => callsOn line i)
    : i < call.line := by
  obtain ⟨⟨line, j⟩, hline, hcall⟩ := List.mem_flatMap.mp h
  have hle := List.le_snd_of_mem_zipIdx hline
  rw [line_of_mem_callsOn hcall]
  exact Nat.lt_succ_of_le hle

/-! ## One line -/

def emitLine (st : Expansion) (line : Text) (i : Nat) : Expansion :=
  (callsOn line i).foldl (pushCall (i + 1)) (st.1 ++ kept line, st.2)

theorem expandLines_cons (line : Text) (rest : List Text) (i : Nat) (st : Expansion)
    : expandLines (line :: rest) i (((line :: rest).zipIdx i).flatMap fun (line, i) =>
        callsOn line i) st
        = expandLines rest (i + 1) ((rest.zipIdx (i + 1)).flatMap fun (line, i) => callsOn line i)
            (emitLine st line i) := by
  have hsplit : ((line :: rest).zipIdx i).flatMap (fun (line, i) => callsOn line i)
      = callsOn line i ++ (rest.zipIdx (i + 1)).flatMap fun (line, i) => callsOn line i := by
    rw [List.zipIdx_cons, List.flatMap_cons]
  have hline : ∀ call ∈ callsOn line i, decide (call.line = i + 1) = true := by
    intro call hcall
    exact decide_eq_true (line_of_mem_callsOn hcall)
  have hmore : ∀ call ∈ (rest.zipIdx (i + 1)).flatMap (fun (line, i) => callsOn line i),
      ¬decide (call.line = i + 1) = true := by
    intro call hcall
    have := lt_line_of_mem hcall
    simp only [decide_eq_true_eq]
    omega
  rw [hsplit]
  generalize (rest.zipIdx (i + 1)).flatMap (fun (line, i) => callsOn line i) = more at *
  have htake : (callsOn line i ++ more).takeWhile (fun call => decide (call.line = i + 1))
      = callsOn line i := by
    rw [List.takeWhile_append_of_pos hline]
    cases more with
    | nil => simp
    | cons call more =>
      have hstop : (call :: more).takeWhile (fun call => decide (call.line = i + 1)) = [] :=
        List.takeWhile_cons_of_neg (hmore call List.mem_cons_self)
      rw [hstop, List.append_nil]
  have hdrop : (callsOn line i ++ more).dropWhile (fun call => decide (call.line = i + 1))
      = more := by
    rw [List.dropWhile_append_of_pos hline]
    cases more with
    | nil => rfl
    | cons call more => exact List.dropWhile_cons_of_neg (hmore call List.mem_cons_self)
  rw [expandLines]
  simp only [htake, hdrop]
  unfold emitLine kept
  cases hcall : hasCall line with
  | true =>
    have hne : callsOn line i ≠ [] := by
      rw [ne_eq, callsOn_eq_nil_iff, hcall]
      exact Bool.noConfusion
    rw [if_pos hne, if_pos rfl, List.append_assoc, List.append_assoc, List.append_assoc]
  | false =>
    have hnil : callsOn line i = [] := callsOn_eq_nil_iff.mpr hcall
    rw [hnil, if_neg (by simp), if_neg (by simp), List.append_assoc]
    rfl

theorem foldl_pushCall_text (lineNum : Nat) (calls : List UVMMacroCall) (st : Expansion)
    : (calls.foldl (pushCall lineNum) st).1 = st.1 ++ expansions calls := by
  induction calls generalizing st with
  | nil => simp [expansions]
  | cons call rest ih =>
    rw [List.foldl_cons, ih]
    simp [pushCall, expansions]

/-! ## The text outside the expansions -/

def Within (st : Expansion) : Prop := ∀ m ∈ st.2, m.expandedEnd ≤ byteLen st.1

theorem Within.outside_push {st : Expansion} (h : Within st) (s : Text)
    : outside (st.1 ++ s, st.2) = outside st ++ s ∧ Within (st.1 ++ s, st.2) := by
  constructor
  . have hranges : ∀ range ∈ st.2.map fun m => (m.expandedStart, m.expandedEnd),
        range.2 ≤ 0 + byteLen st.1 := by
      intro range hrange
      obtain ⟨m, hm, rfl⟩ := List.mem_map.mp hrange
      rw [Nat.zero_add]
      exact h m hm
    unfold outside
    rw [outsideFrom_append, outsideFrom_of_le hranges]
  . intro m hm
    rw [byteLen_append]
    exact Nat.le_trans (h m hm) (Nat.le_add_right _ _)

theorem Within.outside_pushCall {st : Expansion} (h : Within st) (lineNum : Nat)
    (call : UVMMacroCall)
    : outside (pushCall lineNum st call) = outside st ∧ Within (pushCall lineNum st call) := by
  constructor
  . unfold outside pushCall
    dsimp only
    rw [List.map_append, List.map_singleton, List.append_assoc, outsideFrom_append]
    rw [outsideFrom_concat (by rw [Nat.zero_add])]
    rw [outsideFrom_of_mem (List.mem_append_right _ List.mem_cons_self) (by rw [Nat.zero_add])
      (by rw [Nat.zero_add, ← byteLen_append]), List.append_nil]
  . have hle : byteLen st.1 ≤ byteLen (pushCall lineNum st call).1 := by
      simp only [pushCall, List.append_assoc, byteLen_append]
      exact Nat.le_add_right _ _
    intro m hm
    rcases List.mem_append.mp hm with hm | hm
    . exact Nat.le_trans (h m hm) hle
    . rw [List.mem_singleton.mp hm]
      exact Nat.le_refl _

theorem Within.outside_emitLine {st : Expansion} (h : Within st) (line : Text) (i : Nat)
    : outside (emitLine st line i) = outside st ++ kept line ∧ Within (emitLine st line i) := by
  have hcalls : ∀ (calls : List UVMMacroCall) {st : Expansion}, Within st →
      outside (calls.foldl (pushCall (i + 1)) st) = outside st
        ∧ Within (calls.foldl (pushCall (i + 1)) st) := by
    intro calls
    induction calls with
    | nil => exact fun h => ⟨rfl, h⟩
    | cons call rest ih =>
      intro st h
      obtain ⟨hcall, hwithin⟩ := h.outside_pushCall (i + 1) call
      obtain ⟨hrest, hwithin⟩ := ih hwithin
      exact ⟨hrest.trans hcall, hwithin⟩
  obtain ⟨hline, hwithin⟩ := h.outside_push (kept line)
  obtain ⟨hrest, hwithin⟩ := hcalls (callsOn line i) hwithin
  exact ⟨hrest.trans hline, hwithin⟩

/-! ## All lines -/

theorem expandLines_eq (ls : List Text) (i : Nat) {st : Expansion} (h : Within st)
    : let out := expandLines ls i ((ls.zipIdx i).flatMap fun (line, i) => callsOn line i) st
      out.1 = st.1
          ++ ((ls.zipIdx i).map fun (line, i) => kept line ++ expansions (callsOn line i)).flatten
        ∧ outside out = outside st ++ (ls.map kept).flatten := by
  induction ls generalizing i st with
  | nil => simp [expandLines]
  | cons line rest ih =>
    obtain ⟨hline, hwithin⟩ := h.outside_emitLine line i
    obtain ⟨htext, houtside⟩ := ih (i + 1) hwithin
    dsimp only
    rw [expandLines_cons, htext, houtside, hline]
    constructor
    . unfold emitLine
      rw [foldl_pushCall_text]
      simp [List.zipIdx_cons]
    . simp

theorem expand_eq {source : Text} (h : ∃ line ∈ lines source, hasCall line = true)
    : (expand source (scan source)).1
          = ((lines source).zipIdx.map fun (line, i) =>
            kept line ++ expansions (callsOn line i)).flatten
        ∧ outside (expand source (scan source)) = ((lines source).map kept).flatten := by
  obtain ⟨line, hline, hcall⟩ := h
  have hne : scan source ≠ [] := by
    rw [ne_eq, scan_eq_nil_iff]
    intro h
    rw [h line hline] at hcall
    contradiction
  unfold expand
  rw [if_neg hne, (scan_pairwise source).insertionSort_eq, scan_eq]
  have hwithin : Within ([], []) := fun m hm => absurd hm List.not_mem_nil
  exact expandLines_eq (lines source) 0 hwithin

/--
Without the expansions, the output is the source line by line: a line on which the scan finds no
call is as it was, and a line with a call is a comment, which ends with the line. Its expansions
stand directly behind it. A source without a call is not changed at all.
-/
theorem expand_comments_lines_with_calls (source : Text)
    : (∀ line, hasCall line = true ↔ ∃ name ∈ uvmNames, '`' :: name <:+: line)
      ∧ (∀ line ∈ lines source, '\n' ∉ line)
      ∧ ((∀ line ∈ lines source, hasCall line = false) → expand source (scan source) = (source, []))
      ∧ ((∃ line ∈ lines source, hasCall line = true) →
          (expand source (scan source)).1
              = ((lines source).zipIdx.map fun (line, i) =>
                  (if hasCall line then "// ".toList ++ line ++ ['\n'] else line ++ ['\n'])
                    ++ expansions (callsOn line i)).flatten
            ∧ outside (expand source (scan source))
              = ((lines source).map fun line =>
                  if hasCall line then "// ".toList ++ line ++ ['\n']
                    else line ++ ['\n']).flatten) := by
  refine ⟨?_, fun line hline => newline_not_mem_of_mem_lines hline, ?_, ?_⟩
  . intro line
    simp only [hasCall, List.any_eq_true, contains_iff]
  . intro h
    unfold expand
    rw [if_pos (scan_eq_nil_iff.mpr h)]
  . exact expand_eq

theorem expand_comments_lines_with_calls_create
    : outside (expand "a;\n`uvm_create(x)\nb;\n".toList (scan "a;\n`uvm_create(x)\nb;\n".toList))
        = "a;\n// `uvm_create(x)\nb;\n".toList := by
  have h := (expand_comments_lines_with_calls "a;\n`uvm_create(x)\nb;\n".toList).2.2.2
    ⟨"`uvm_create(x)".toList, by decide, by decide +kernel⟩
  rw [h.2]
  decide +kernel

-- The condition before the call is lost with the call, and the line that closes the second call
-- stays
theorem expand_loses_condition
    : outside (expand "if (c) `uvm_send(x)\n".toList (scan "if (c) `uvm_send(x)\n".toList))
        = "// if (c) `uvm_send(x)\n".toList
      ∧ outside (expand "`uvm_send(\nx)\n".toList (scan "`uvm_send(\nx)\n".toList))
        = "// `uvm_send(\nx)\n".toList := by
  constructor
  . decide +kernel
  . decide +kernel

end Pass3Expander
end HdlGraph
