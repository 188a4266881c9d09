import HdlGraph.Parse.Preprocessor.Outside

/-!
This module contains the source map of pass 3: the mappings lie in the output one behind the other,
one for each call, and without the mapped ranges the lines of the source can be read back.
-/

namespace HdlGraph
namespace Pass3Expander

open Text Pass2Scanner

/-! ## The ranges -/

theorem expandLines_induction {P : Expansion → Prop} (htext : ∀ st s, P st → P (st.1 ++ s, st.2))
    (hcall : ∀ st lineNum call, P st → P (pushCall lineNum st call)) (ls : List Text) (i : Nat)
    (calls : List UVMMacroCall) {st : Expansion} (h : P st)
    : P (expandLines ls i calls st) := by
  have hcalls : ∀ (lineNum : Nat) (calls : List UVMMacroCall) {st : Expansion}, P st →
      P (calls.foldl (pushCall lineNum) st) := by
    intro lineNum calls
    induction calls with
    | nil => exact id
    | cons call rest ih => exact fun h => ih (hcall _ _ _ h)
  induction ls generalizing i calls st with
  | nil => exact h
  | cons line rest ih =>
    rw [expandLines]
    dsimp only
    split
    . have hline := htext st ("// ".toList ++ (line ++ ['\n'])) h
      rw [← List.append_assoc, ← List.append_assoc] at hline
      exact ih _ _ (hcalls _ _ hline)
    . have hline := htext st (line ++ ['\n']) h
      rw [← List.append_assoc] at hline
      exact ih _ _ hline

structure InOrder (st : Expansion) : Prop where
  within : Within st
  nonempty : ∀ m ∈ st.2, m.expandedStart < m.expandedEnd
  pairwise : st.2.Pairwise fun m m' => m.expandedEnd ≤ m'.expandedStart

theorem InOrder.push {st : Expansion} (h : InOrder st) (s : Text) : InOrder (st.1 ++ s, st.2) where
  within := (h.within.outside_push s).2
  nonempty := h.nonempty
  pairwise := h.pairwise

theorem InOrder.pushCall {st : Expansion} (h : InOrder st) (lineNum : Nat) (call : UVMMacroCall)
    : InOrder (pushCall lineNum st call) where
  within := (h.within.outside_pushCall lineNum call).2
  nonempty := by
    intro m hm
    rcases List.mem_append.mp hm with hm | hm
    . exact h.nonempty m hm
    . rw [List.mem_singleton.mp hm]
      have hlength : byteLen (st.1 ++ expandOne call.macroName call.args ++ ['\n'])
          = byteLen st.1 + byteLen (expandOne call.macroName call.args) + 1 := by
        rw [byteLen_append, byteLen_append]
        rfl
      dsimp only
      omega
  pairwise := by
    apply List.pairwise_append.mpr
    refine ⟨h.pairwise, List.pairwise_singleton _ _, ?_⟩
    intro m hm m' hm'
    rw [List.mem_singleton.mp hm']
    exact h.within m hm

theorem inOrder_expand (source : Text) : InOrder (expand source (scan source)) := by
  unfold expand
  have hempty : ∀ s : Text, InOrder (s, []) := fun s => ⟨nofun, nofun, .nil⟩
  split
  . exact hempty source
  . exact expandLines_induction (fun st s h => h.push s)
      (fun st lineNum call h => h.pushCall lineNum call) _ _ _ (hempty [])

theorem isCharBoundary_of_slice? {s middle : Text} {start stop : Nat}
    (h : slice? s start stop = some middle)
    : IsCharBoundary s start ∧ IsCharBoundary s stop := by
  simp only [slice?, Option.bind_eq_bind, Option.bind_eq_some_iff, Prod.exists] at h
  obtain ⟨upTo, back, hstop, front, middle', hstart, _⟩ := h
  obtain ⟨hs, hstop⟩ := splitAtByte?_eq_some hstop
  obtain ⟨hupTo, hstart⟩ := splitAtByte?_eq_some hstart
  exact ⟨⟨front, middle' ++ back, by rw [hs, hupTo, List.append_assoc], hstart⟩,
    ⟨upTo, back, hs, hstop⟩⟩

/-! ## One mapping for each call -/

def mapped (st : Expansion) : List (Nat × Text × List Text) :=
  st.2.map fun m => (m.originalLine, m.macroName, m.macroArgs)

def called (call : UVMMacroCall) : Nat × Text × List Text := (call.line, call.macroName, call.args)

theorem mapped_emitLine (st : Expansion) (line : Text) (i : Nat)
    : mapped (emitLine st line i) = mapped st ++ (callsOn line i).map called := by
  have hcalls : ∀ (calls : List UVMMacroCall) (st : Expansion),
      (∀ call ∈ calls, call.line = i + 1) →
      mapped (calls.foldl (pushCall (i + 1)) st) = mapped st ++ calls.map called := by
    intro calls
    induction calls with
    | nil => simp
    | cons call rest ih =>
      intro st h
      rw [List.foldl_cons, ih _ fun call hcall => h call (List.mem_cons_of_mem _ hcall)]
      simp [mapped, called, pushCall, h call List.mem_cons_self]
  exact hcalls (callsOn line i) _ fun call hcall => line_of_mem_callsOn hcall

theorem mapped_expandLines (ls : List Text) (i : Nat) (st : Expansion)
    : mapped (expandLines ls i ((ls.zipIdx i).flatMap fun (line, i) => callsOn line i) st)
        = mapped st ++ ((ls.zipIdx i).flatMap fun (line, i) => callsOn line i).map called := by
  induction ls generalizing i st with
  | nil => simp [expandLines]
  | cons line rest ih =>
    rw [expandLines_cons, ih, mapped_emitLine, List.zipIdx_cons, List.flatMap_cons, List.map_append,
      List.append_assoc]

theorem mapped_expand (source : Text)
    : mapped (expand source (scan source)) = (scan source).map called := by
  unfold expand
  split
  . next h => simp [h, mapped]
  . rw [(scan_pairwise source).insertionSort_eq]
    exact mapped_expandLines (lines source) 0 ([], [])

/-! ## Reading the source back -/

def restore (st : Expansion) : List Text :=
  ((outside st).splitOn '\n').dropLast.zipIdx.map fun (line, i) =>
    if st.2.any (·.originalLine = i + 1) then line.drop 3 else line

theorem splitOn_flatten {ls : List Text} (h : ∀ line ∈ ls, '\n' ∉ line)
    : ((ls.map (· ++ ['\n'])).flatten.splitOn '\n').dropLast = ls := by
  induction ls with
  | nil => rfl
  | cons line rest ih =>
    have hline : ∀ c ∈ line, (c == '\n') = false := by
      intro c hc
      simpa using fun heq : c = '\n' => h line List.mem_cons_self (heq ▸ hc)
    have ih := ih fun line hline => h line (List.mem_cons_of_mem _ hline)
    rw [List.splitOn_eq_splitOnP] at ih ⊢
    rw [List.map_cons, List.flatten_cons, List.append_assoc]
    rw [List.singleton_append, List.splitOnP_append_cons_of_forall_mem hline '\n' (by decide)]
    rw [List.dropLast_cons_of_ne_nil (List.splitOnP_ne_nil _ _), ih]

theorem any_originalLine (source : Text) {line : Text} {i : Nat}
    (h : (line, i) ∈ (lines source).zipIdx)
    : (expand source (scan source)).2.any (·.originalLine = i + 1) = hasCall line := by
  have hmapped := congrArg (List.map Prod.fst) (mapped_expand source)
  have horiginal : (expand source (scan source)).2.map (·.originalLine)
      = (scan source).map (·.line) := by
    simpa [mapped, called, List.map_map, Function.comp_def] using hmapped
  have hany : (expand source (scan source)).2.any (·.originalLine = i + 1)
      = (scan source).any (·.line = i + 1) := by
    have := congrArg (List.any · (· = i + 1)) horiginal
    simpa [List.any_map, Function.comp_def] using this
  rw [hany, Bool.eq_iff_iff, List.any_eq_true]
  constructor
  . rintro ⟨call, hcall, hline⟩
    rw [scan_eq] at hcall
    obtain ⟨⟨line', j⟩, hline', hcall⟩ := List.mem_flatMap.mp hcall
    change call ∈ callsOn line' j at hcall
    have hj : j = i := by
      have := line_of_mem_callsOn hcall
      simp only [decide_eq_true_eq] at hline
      omega
    subst hj
    have hsame : line' = line := by
      rw [List.mk_mem_zipIdx_iff_getElem?] at h hline'
      rw [h] at hline'
      exact (Option.some.inj hline').symm
    subst hsame
    by_contra hnot
    rw [Bool.not_eq_true] at hnot
    rw [callsOn_eq_nil_iff.mpr hnot] at hcall
    contradiction
  . intro hcall
    have hne : callsOn line i ≠ [] := by
      rw [ne_eq, callsOn_eq_nil_iff, hcall]
      exact Bool.noConfusion
    obtain ⟨call, hmem⟩ := List.exists_mem_of_ne_nil _ hne
    refine ⟨call, ?_, decide_eq_true (line_of_mem_callsOn hmem)⟩
    rw [scan_eq]
    exact List.mem_flatMap.mpr ⟨(line, i), h, hmem⟩

theorem restore_expand {source : Text} (h : scan source ≠ [])
    : restore (expand source (scan source)) = lines source := by
  have hsome := exists_hasCall_of_scan_ne_nil h
  have hlines : ∀ line ∈ (lines source).map fun line => if hasCall line then "// ".toList ++ line
      else line, '\n' ∉ line := by
    intro line hmem
    obtain ⟨line, hline, rfl⟩ := List.mem_map.mp hmem
    have hnot := newline_not_mem_of_mem_lines hline
    split
    . simpa using hnot
    . exact hnot
  have hout : outside (expand source (scan source))
      = (((lines source).map fun line => if hasCall line then "// ".toList ++ line else line).map
          (· ++ ['\n'])).flatten := by
    rw [(expand_eq hsome).2, List.map_map]
    congr 2
    funext line
    simp only [Function.comp, kept]
    split <;> simp
  unfold restore
  rw [hout, splitOn_flatten hlines, List.zipIdx_map, List.map_map]
  apply List.ext_getElem?
  intro i
  rw [List.getElem?_map, List.getElem?_zipIdx]
  cases hget : (lines source)[i]? with
  | none => rfl
  | some line =>
    have hmem : (line, i) ∈ (lines source).zipIdx := List.mk_mem_zipIdx_iff_getElem?.mpr hget
    simp only [Option.map_some, Nat.zero_add, Function.comp, Prod.map, id,
      any_originalLine source hmem]
    cases hasCall line <;> rfl

/--
Every mapping locates the expansion of its call. The ranges lie in the output on character
boundaries, one behind the other, and there is one for each call, in the order of the calls. Without
them and the comment marks the lines of the source come back; a source without a call is the output
itself.
-/
theorem expand_mappings (source : Text)
    : let calls := scan source
      let out := expand source calls
      (out.2.map fun m => (m.originalLine, m.macroName, m.macroArgs))
      = (calls.map fun c => (c.line, c.macroName, c.args))
        ∧ (∀ m ∈ out.2, m.expandedStart < m.expandedEnd ∧ m.expandedEnd ≤ byteLen out.1
            ∧ IsCharBoundary out.1 m.expandedStart ∧ IsCharBoundary out.1 m.expandedEnd
            ∧ slice? out.1 m.expandedStart m.expandedEnd
              = some (expandOne m.macroName m.macroArgs ++ ['\n']))
        ∧ out.2.Pairwise (fun m m' => m.expandedEnd ≤ m'.expandedStart)
        ∧ (calls = [] → out.1 = source)
        ∧ (calls ≠ [] → restore out = lines source) := by
  have hinOrder := inOrder_expand source
  have hlength : (expand source (scan source)).2.length = (scan source).length := by
    simpa [mapped] using congrArg List.length (mapped_expand source)
  refine ⟨mapped_expand source, ?_, hinOrder.pairwise, ?_, restore_expand⟩
  . intro m hm
    obtain ⟨a, ha, rfl⟩ := List.getElem_of_mem hm
    have hslice := congrArg (·[a]?) (located_expand_scan source)
    have hcall := congrArg (·[a]?) (mapped_expand source)
    simp only [located, mapped, List.getElem?_map, List.getElem?_eq_getElem ha,
      List.getElem?_eq_getElem (hlength ▸ ha), Option.map_some, Option.some.injEq, expansionOf,
      called, Prod.mk.injEq] at hslice hcall
    rw [← hcall.2.1, ← hcall.2.2] at hslice
    obtain ⟨hstart, hstop⟩ := isCharBoundary_of_slice? hslice.2
    exact ⟨hinOrder.nonempty _ hm, hinOrder.within _ hm, hstart, hstop, hslice.2⟩
  . intro h
    unfold expand
    rw [if_pos h]

end Pass3Expander
end HdlGraph
