import HdlGraph.Parse.Preprocessor.Pass1Standard
import HdlGraph.Parse.Preprocessor.SourceMap

/-!
This module contains the four passes of the UVM preprocessor one after the other, and the line of
the source that each line of the output of pass 1 comes from. The source map numbers the lines of
pass 1; it ends with the exact condition under which these are the numbers of the lines of the
source.
-/

namespace HdlGraph

structure PreprocessedFile where
  expandedSource : Text
  filePath : Text
  sourceMap : List SourceMapping
  includes : List Text
  hasUvmMacros : Bool

namespace Pass4Merger

def merge (_original expanded : Text) (_mappings : List SourceMapping) : Text := expanded

end Pass4Merger

namespace Preprocessor

open Text Conditional Pass1Standard Pass2Scanner Pass3Expander

def preprocess (source filePath : Text) (defines : Dict Text Text) (includeDirs : List Text)
    : PreprocessedFile :=
  let (afterPass1, includes) := Pass1Standard.run source defines includeDirs
  let uvmCalls := scan afterPass1
  let (expanded, sourceMap) := expand afterPass1 uvmCalls
  let result := Pass4Merger.merge source expanded sourceMap
  { expandedSource := result
    filePath := filePath
    sourceMap := sourceMap
    includes := includes
    hasUvmMacros := uvmCalls ≠ [] }

theorem preprocess_sourceMap (source filePath : Text) (defines : Dict Text Text)
    (includeDirs : List Text)
    : (preprocess source filePath defines includeDirs).sourceMap
        = (expand (Pass1Standard.run source defines includeDirs).1
            (scan (Pass1Standard.run source defines includeDirs).1)).2 :=
  rfl

/-! ## What pass 1 writes for a line -/

def emitted (stack : List Bool) (st : State) (line : Text) : Text :=
  (step stack { st with result := [] } line).2.result

def isConsumed (stack : List Bool) (line : Text) : Bool :=
  kind line ≠ .plain || stack.head?.getD true = false || startsWith (trim line) "`define ".toList
    || startsWith (trim line) "`undef ".toList

theorem exists_keepLine_eq (st : State) (line : Text)
    : ∃ text, EndsLine text
        ∧ (text = []
            ↔ (startsWith (trim line) "`define ".toList || startsWith (trim line) "`undef ".toList)
            = true)
        ∧ ∀ result, keepLine { st with result := result } line
          = { keepLine st line with result := result ++ text } := by
  unfold keepLine
  dsimp only
  split
  . next hdefine =>
    refine ⟨[], endsLine_nil, by rw [hdefine, Bool.true_or]; exact iff_of_true rfl rfl, ?_⟩
    intro result
    split
    . rw [List.append_nil]
    . split <;> rw [List.append_nil]
  . next hdefine =>
    split
    . next hundef =>
      refine ⟨[], endsLine_nil, by rw [hundef, Bool.or_true]; exact iff_of_true rfl rfl, ?_⟩
      intro result
      rw [List.append_nil]
    . next hundef =>
      rw [Bool.eq_false_of_not_eq_true hdefine, Bool.eq_false_of_not_eq_true hundef, Bool.or_self]
      have hpushed (text : Text) : (text ++ ['\n'] = [] ↔ false = true) := by simp
      have hpush (text : Text) : ∀ result, ({ st with result := result } : State).pushLine text
          = { st.pushLine text with result := result ++ (text ++ ['\n']) } := by
        intro result
        unfold State.pushLine
        rw [List.append_assoc]
      split
      . generalize trimMatches '>' _ = path
        have hline : "// `include \"".toList ++ path ++ "\"\n".toList
            = ("// `include \"".toList ++ path ++ ['"']) ++ ['\n'] := by
          rw [List.append_assoc _ ['"']]
          rfl
        refine ⟨("// `include \"".toList ++ path ++ ['"']) ++ ['\n'], endsLine_append _,
          hpushed _, ?_⟩
        intro result
        rw [← hline, List.append_assoc, List.append_assoc, List.append_assoc]
      . split
        . cases st.defines.get? _ with
          | some value => exact ⟨_, endsLine_append _, hpushed _, hpush _⟩
          | none => exact ⟨_, endsLine_append _, hpushed _, hpush _⟩
        . exact ⟨_, endsLine_append _, hpushed _, hpush _⟩

theorem keepLine_eq (st : State) (line : Text)
    : keepLine st line
        = { keepLine st line with
            result := st.result ++ (keepLine { st with result := [] } line).result } := by
  obtain ⟨text, _, _, htext⟩ := exists_keepLine_eq st line
  rw [htext [], List.nil_append, ← htext st.result]

theorem step_eq_keepLine (stack : List Bool) (st : State) (line : Text)
    : (step stack st line).2 = if kind line = .plain
        ∧ stack.head?.getD true then keepLine st line else st := by
  simp only [step, kind]
  split
  . simp
  . split
    . simp
    . split
      . simp
      . split
        . split <;> simp
        . split
          . split <;> simp
          . simp only [true_and]
            split <;> rfl

theorem emitted_eq (stack : List Bool) (st : State) (line : Text)
    : emitted stack st line
        = if kind line = .plain
          ∧ stack.head?.getD true then (keepLine { st with result := [] } line).result else [] := by
  unfold emitted
  rw [step_eq_keepLine]
  split <;> rfl

theorem step_result (stack : List Bool) (st : State) (line : Text)
    : (step stack st line).2.result = st.result ++ emitted stack st line := by
  rw [emitted_eq, step_eq_keepLine]
  split
  . exact congrArg State.result (keepLine_eq st line)
  . rw [List.append_nil]

theorem endsLine_emitted (stack : List Bool) (st : State) (line : Text)
    : EndsLine (emitted stack st line) := by
  rw [emitted_eq]
  split
  . obtain ⟨text, hends, _, htext⟩ := exists_keepLine_eq st line
    rwa [htext [], List.nil_append]
  . exact endsLine_nil

theorem emitted_eq_nil_iff {stack : List Bool} {st : State} {line : Text}
    : emitted stack st line = [] ↔ isConsumed stack line = true := by
  rw [emitted_eq]
  unfold isConsumed
  obtain ⟨text, _, hnil, htext⟩ := exists_keepLine_eq st line
  rw [htext [], List.nil_append]
  generalize (startsWith (trim line) "`define ".toList) = isDefine at *
  generalize (startsWith (trim line) "`undef ".toList) = isUndef at *
  by_cases hplain : kind line = .plain
  . cases hactive : stack.head?.getD true <;> simp [hplain, hnil]
  . simp [hplain]

/-! ## Line by line -/

def emissionsFrom : List Text → List Bool → State → List Text
  | [], _, _ => []
  | line :: rest, stack, st =>
    emitted stack st line :: emissionsFrom rest (step stack st line).1 (step stack st line).2

def emissions (source : Text) (defines : Dict Text Text) : List Text :=
  emissionsFrom (lines source) [true] (State.init defines)

-- The number of the line of the source, for each line of the output of pass 1
def origins (source : Text) (defines : Dict Text Text) : List Nat :=
  (emissions source defines).zipIdx.flatMap fun (text, i) => (lines text).map fun _ => i + 1

def after (ls : List Text) (stack : List Bool) (st : State) : List Bool × State :=
  ls.foldl (fun s line => step s.1 s.2 line) (stack, st)

def consumed : List Text → List Bool → State → Nat
  | [], _, _ => 0
  | line :: rest, stack, st =>
    (if isConsumed stack line then 1 else 0) + consumed rest (step stack st line).1
    (step stack st line).2

-- The lines that values of several lines add
def added : List Text → List Bool → State → Nat
  | [], _, _ => 0
  | line :: rest, stack, st =>
    ((lines (emitted stack st line)).length - 1) + added rest (step stack st line).1
    (step stack st line).2

theorem runLines_result (ls : List Text) (stack : List Bool) (st : State)
    : (runLines ls stack st).result = st.result ++ (emissionsFrom ls stack st).flatten := by
  induction ls generalizing stack st with
  | nil => simp [runLines, emissionsFrom]
  | cons line rest ih =>
    rw [runLines, ih, step_result, emissionsFrom, List.flatten_cons, List.append_assoc]

theorem run_text (source : Text) (defines : Dict Text Text) (includeDirs : List Text)
    : (Pass1Standard.run source defines includeDirs).1 = (emissions source defines).flatten := by
  have h := runLines_result (lines source) [true] (State.init defines)
  rwa [show (State.init defines).result = [] from rfl, List.nil_append] at h

theorem getElem?_emissionsFrom (ls : List Text) (stack : List Bool) (st : State) (i : Nat)
    : (emissionsFrom ls stack st)[i]?
        = ls[i]?.map fun line =>
          emitted (after (ls.take i) stack st).1 (after (ls.take i) stack st).2 line := by
  induction ls generalizing stack st i with
  | nil => rfl
  | cons line rest ih =>
    cases i with
    | zero => rfl
    | succ i => exact ih _ _ i

theorem endsLine_of_mem_emissionsFrom {ls : List Text} {stack : List Bool} {st : State}
    {text : Text} (h : text ∈ emissionsFrom ls stack st)
    : EndsLine text := by
  obtain ⟨i, hi⟩ := List.getElem?_of_mem h
  rw [getElem?_emissionsFrom, Option.map_eq_some_iff] at hi
  obtain ⟨line, _, rfl⟩ := hi
  exact endsLine_emitted _ _ _

theorem lines_emissions (source : Text) (defines : Dict Text Text)
    : lines (emissions source defines).flatten = ((emissions source defines).map lines).flatten :=
  lines_flatten fun _ htext => endsLine_of_mem_emissionsFrom htext

theorem length_flatten_emissionsFrom (ls : List Text) (stack : List Bool) (st : State)
    : ((emissionsFrom ls stack st).map lines).flatten.length + consumed ls stack st
        = ls.length + added ls stack st := by
  induction ls generalizing stack st with
  | nil => rfl
  | cons line rest ih =>
    have hrest := ih (step stack st line).1 (step stack st line).2
    rw [emissionsFrom, List.map_cons, List.flatten_cons, List.length_append, List.length_cons,
      consumed, added]
    have hnil : (lines (emitted stack st line)).length = 0 ↔ isConsumed stack line = true := by
      rw [List.length_eq_zero_iff, (endsLine_emitted stack st line).lines_eq_nil_iff,
        emitted_eq_nil_iff]
    split
    . next hconsumed =>
      have := hnil.mpr hconsumed
      omega
    . next hconsumed =>
      have : (lines (emitted stack st line)).length ≠ 0 := fun hzero => hconsumed (hnil.mp hzero)
      omega

theorem length_emissionsFrom (ls : List Text) (stack : List Bool) (st : State)
    : (emissionsFrom ls stack st).length = ls.length := by
  induction ls generalizing stack st with
  | nil => rfl
  | cons line rest ih => rw [emissionsFrom, List.length_cons, List.length_cons, ih]

theorem take_emissionsFrom (ls : List Text) (stack : List Bool) (st : State) (i : Nat)
    : (emissionsFrom ls stack st).take i = emissionsFrom (ls.take i) stack st := by
  induction ls generalizing stack st i with
  | nil => simp [emissionsFrom]
  | cons line rest ih =>
    cases i with
    | zero => rfl
    | succ i => simp [emissionsFrom, ih]

/-! ## The place of a line in the output -/

theorem getElem?_flatten_iff {α : Type} {lss : List (List α)} {k : Nat} {x : α}
    : lss.flatten[k]? = some x
      ↔ ∃ i l j, lss[i]? = some l ∧ l[j]? = some x ∧ k = (lss.take i).flatten.length + j := by
  induction lss generalizing k with
  | nil => simp
  | cons l rest ih =>
    rw [List.flatten_cons, List.getElem?_append]
    constructor
    . intro h
      split at h
      . exact ⟨0, l, k, rfl, h, by simp⟩
      . next hk =>
        obtain ⟨i, l', j, hi, hj, hkj⟩ := ih.mp h
        refine ⟨i + 1, l', j, hi, hj, ?_⟩
        rw [List.take_succ_cons, List.flatten_cons, List.length_append]
        omega
    . rintro ⟨i, l', j, hi, hj, rfl⟩
      cases i with
      | zero =>
        obtain rfl : l = l' := Option.some.inj hi
        have := (List.getElem?_eq_some_iff.mp hj).1
        rw [if_pos (by simpa using this)]
        simpa using hj
      | succ i =>
        rw [List.take_succ_cons, List.flatten_cons, List.length_append, if_neg (by omega)]
        apply ih.mpr
        exact ⟨i, l', j, hi, hj, by omega⟩

theorem getElem?_origins {texts : List (List Text)} {i j n : Nat} {l : List Text}
    (hi : texts[i]? = some l) (hj : j < l.length)
    : ((texts.zipIdx n).flatMap fun (l, i) =>
        l.map fun _ => i + 1)[(texts.take i).flatten.length + j]?
        = some (n + i + 1) := by
  induction texts generalizing i n with
  | nil => simp at hi
  | cons l' rest ih =>
    rw [List.zipIdx_cons, List.flatMap_cons]
    cases i with
    | zero =>
      obtain rfl : l' = l := Option.some.inj hi
      simp [List.getElem?_append, hj]
    | succ i =>
      have := ih (n := n + 1) hi
      rw [List.take_succ_cons, List.flatten_cons, List.length_append,
        List.getElem?_append_right (by simp; omega)]
      rw [List.length_map, Nat.add_assoc, Nat.add_sub_cancel_left, this]
      congr 1
      omega

theorem origins_eq (source : Text) (defines : Dict Text Text)
    : origins source defines
        = (((emissions source defines).map lines).zipIdx.flatMap fun (l, i) =>
          l.map fun _ => i + 1) := by
  unfold origins
  rw [List.zipIdx_map, List.flatMap_map]
  rfl

def textBehind (defines : Dict Text Text) (front : List Text) (line : Text) : Text :=
  emitted (after front [true] (State.init defines)).1
    (after front [true] (State.init defines)).2 line

theorem getElem?_emissions {source line : Text} {defines : Dict Text Text}
    {front behind : List Text} (h : lines source = front ++ line :: behind)
    : ((emissions source defines).map lines)[front.length]?
        = some (lines (textBehind defines front line)) := by
  rw [List.getElem?_map, emissions, getElem?_emissionsFrom]
  simp [h, textBehind]

theorem place_emissions {source line : Text} {defines : Dict Text Text} {front behind : List Text}
    (h : lines source = front ++ line :: behind) {j : Nat}
    (hj : j < (lines (textBehind defines front line)).length)
    : let place := (((emissions source defines).map lines).take front.length).flatten.length
      (origins source defines)[place + j]? = some (front.length + 1)
        ∧ place + consumed front [true] (State.init defines)
          = front.length + added front [true] (State.init defines) := by
  constructor
  . rw [origins_eq, getElem?_origins (getElem?_emissions h) hj, Nat.zero_add]
  . rw [← List.map_take, emissions, take_emissionsFrom, h, List.take_left]
    exact length_flatten_emissionsFrom front _ _

/-! ## The lines of the mappings -/

theorem mem_originalLines_iff {text : Text} {k : Nat}
    : (∃ m ∈ (expand text (scan text)).2, m.originalLine = k + 1)
        ↔ ∃ line, (lines text)[k]? = some line ∧ hasCall line := by
  constructor
  . rintro ⟨m, hm, hline⟩
    have hany : (expand text (scan text)).2.any (·.originalLine = k + 1) = true :=
      List.any_eq_true.mpr ⟨m, hm, decide_eq_true hline⟩
    have hmem : m.originalLine ∈ (scan text).map (·.line) := by
      have horiginal := congrArg (List.map Prod.fst) (mapped_expand text)
      simp only [mapped, called, List.map_map, Function.comp_def] at horiginal
      rw [← horiginal]
      exact List.mem_map_of_mem hm
    obtain ⟨call, hcall, hk⟩ := List.mem_map.mp hmem
    have hbound := line_of_mem_scan hcall
    obtain ⟨line, hget⟩ : ∃ line, (lines text)[k]? = some line :=
      ⟨_, List.getElem?_eq_getElem (by omega)⟩
    rw [any_originalLine text (List.mk_mem_zipIdx_iff_getElem?.mpr hget)] at hany
    exact ⟨line, hget, hany⟩
  . rintro ⟨line, hget, hcall⟩
    have hany := any_originalLine text (List.mk_mem_zipIdx_iff_getElem?.mpr hget)
    rw [hcall] at hany
    obtain ⟨m, hm, hline⟩ := List.any_eq_true.mp hany
    exact ⟨m, hm, of_decide_eq_true hline⟩

theorem originalLine_pos {text : Text} {m : SourceMapping} (h : m ∈ (expand text (scan text)).2)
    : 0 < m.originalLine := by
  have hmem : (m.originalLine, m.macroName, m.macroArgs) ∈ mapped (expand text (scan text)) :=
    List.mem_map_of_mem h
  rw [mapped_expand] at hmem
  obtain ⟨call, hcall, heq⟩ := List.mem_map.mp hmem
  have hline : call.line = m.originalLine := congrArg Prod.fst heq
  rw [← hline]
  exact (line_of_mem_scan hcall).1

/--
The mappings carry the numbers of the source lines exactly if for every line with a call that pass 1
writes, the lines that it has dropped up to there are as many as it has added: those of values of
several lines, and those of the text of the line itself that stand before the call.
-/
theorem originalLine_right_iff (source filePath : Text) (defines : Dict Text Text)
    (includeDirs : List Text)
    : (∀ m ∈ (preprocess source filePath defines includeDirs).sourceMap,
        (origins source defines)[m.originalLine - 1]? = some m.originalLine)
      ↔
      ∀ front line behind, lines source = front ++ line :: behind →
        ∀ j written, (lines (textBehind defines front line))[j]? = some written → hasCall written →
          consumed front [true] (State.init defines)
            = added front [true] (State.init defines) + j := by
  have hlines := lines_emissions source defines
  rw [preprocess_sourceMap, run_text]
  generalize (emissions source defines).flatten = text at *
  constructor
  . intro h front line behind hsource j written hwritten hcall
    have hplace := place_emissions hsource (List.getElem?_eq_some_iff.mp hwritten).1
    have hget := getElem?_flatten_iff.mpr ⟨_, _, j, getElem?_emissions hsource, hwritten, rfl⟩
    rw [← hlines] at hget
    obtain ⟨m, hm, hline⟩ := mem_originalLines_iff.mpr ⟨written, hget, hcall⟩
    have hright := h m hm
    rw [hline, Nat.add_sub_cancel, hplace.1, Option.some.injEq] at hright
    omega
  . intro h m hm
    have hpos := originalLine_pos hm
    obtain ⟨written, hget, hcall⟩ :=
      mem_originalLines_iff.mp ⟨m, hm, (Nat.sub_add_cancel hpos).symm⟩
    rw [hlines] at hget
    obtain ⟨i, l, j, hl, hj, hk⟩ := getElem?_flatten_iff.mp hget
    obtain ⟨front, line, behind, hsource, rfl⟩ : ∃ front line behind,
      lines source = front ++ line :: behind ∧ front.length = i := by
      rw [List.getElem?_map, emissions, getElem?_emissionsFrom, Option.map_map,
        Option.map_eq_some_iff] at hl
      obtain ⟨line, hi, _⟩ := hl
      obtain ⟨hlt, rfl⟩ := List.getElem?_eq_some_iff.mp hi
      refine ⟨(lines source).take i, (lines source)[i], (lines source).drop (i + 1), ?_,
        List.length_take_of_le (Nat.le_of_lt hlt)⟩
      rw [← List.drop_eq_getElem_cons hlt, List.take_append_drop]
    obtain rfl : lines (textBehind defines front line) = l := by
      rw [getElem?_emissions hsource] at hl
      exact Option.some.inj hl
    have hplace := place_emissions hsource (List.getElem?_eq_some_iff.mp hj).1
    have hcount := h front line behind hsource j written hj hcall
    rw [hk, hplace.1]
    congr 1
    omega

theorem originalLine_behind_define
    : (preprocess "`define A\n`uvm_create(x)\n".toList [] Dict.empty []).sourceMap.map
        (·.originalLine) = [1]
      ∧ origins "`define A\n`uvm_create(x)\n".toList Dict.empty = [2]
      ∧ ¬∀ m ∈ (preprocess "`define A\n`uvm_create(x)\n".toList [] Dict.empty []).sourceMap,
          (origins "`define A\n`uvm_create(x)\n".toList Dict.empty)[m.originalLine - 1]?
          = some m.originalLine := by
  refine ⟨by decide +kernel, by decide +kernel, by decide +kernel⟩

end Preprocessor
end HdlGraph
