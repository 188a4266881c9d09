import HdlGraph.Parse.Preprocessor.Pass2Scanner
import Mathlib.Data.List.Sort

/-!
This module contains pass 3 of the UVM preprocessor, which comments out the lines with macro calls
and puts the expansions of the calls behind them. Every mapping that the pass returns locates the
expansion of its call in the text.
-/

namespace HdlGraph

structure SourceMapping where
  expandedStart : Nat
  expandedEnd : Nat
  originalFile : Text
  originalLine : Nat
  macroName : Text
  macroArgs : List Text
deriving DecidableEq, Repr

namespace Pass3Expander

open Text

def arg (args : List Text) (i : Nat) (default : String) : Text := args[i]?.getD default.toList

def registryTypedef (registry : String) (t : Text) : Text :=
  "typedef ".toList ++ registry.toList ++ " #(".toList ++ t ++ ", \"".toList ++ t
    ++ "\") type_id;".toList

def getTypeFunction : Text :=
  "\nstatic function type_id get_type();\n    return type_id::get();\nendfunction".toList

def objectTypeFunctions (t : Text) : Text :=
  "\nvirtual function uvm_object_wrapper get_object_type();\n    return type_id::get();\nendfunction".toList
    ++ "\nfunction string get_type_name();\n    return \"".toList ++ t ++ "\";\nendfunction".toList

def doPrintFunction (call : Text) : Text :=
  "function void do_print(uvm_printer printer);\n    super.do_print(printer);\n    ".toList ++ call
    ++ "\nendfunction\n".toList

def doCopyFunction (field : Text) : Text :=
  "function void do_copy(uvm_object rhs);\n    _rhs_type _rhs;\n    if (!$cast(_rhs, rhs)) return;\n".toList
    ++ "    super.do_copy(rhs);\n    this.".toList ++ field ++ " = _rhs.".toList ++ field
    ++ ";\nendfunction".toList

def createItem (item : Text) : Text :=
  item ++ " = ".toList ++ item ++ "_type::type_id::create(\"".toList ++ item
    ++ "\", get_full_name(), , get_context());".toList

def sequenceBlock (statements : List Text) : Text :=
  "begin\n".toList ++ (statements.map fun s => "    ".toList ++ s ++ ['\n']).flatten ++ "end".toList

def startItem (arguments : Text) : Text := "start_item(".toList ++ arguments ++ ");".toList

def randomizeItem (item : Text) : Text := "assert(".toList ++ item ++ ".randomize());".toList

def randomizeItemWith (item constraints : Text) : Text :=
  "assert(".toList ++ item ++ ".randomize() with \x7b".toList ++ constraints ++ "\x7d);".toList

def finishItem (item : Text) : Text := "finish_item(".toList ++ item ++ ");".toList

def report (function : String) (id msg : Text) : Text :=
  function.toList ++ "(".toList ++ id ++ ", $sformatf(".toList ++ msg
    ++ "), UVM_NONE, `__FILE__, `__LINE__);".toList

def expandOne (macroName : Text) (args : List Text) : Text :=
  if macroName = "uvm_component_utils".toList then
    let t := arg args 0 "T"
    registryTypedef "uvm_component_registry" t ++ getTypeFunction ++ objectTypeFunctions t
  else if macroName = "uvm_object_utils".toList then
    let t := arg args 0 "T"
    registryTypedef "uvm_object_registry" t ++ getTypeFunction ++ objectTypeFunctions t
  else if macroName = "uvm_component_param_utils".toList then
    registryTypedef "uvm_component_registry" (arg args 0 "T") ++ getTypeFunction
  else if macroName = "uvm_object_param_utils".toList then
    registryTypedef "uvm_object_registry" (arg args 0 "T") ++ getTypeFunction
  else if macroName = "uvm_field_int".toList then
    let field := arg args 0 "field"
    let flags := arg args 1 "UVM_ALL_ON"
    doPrintFunction
      ("printer.print_field_int(\"".toList ++ field ++ "\", ".toList ++ field ++ ", $bits(".toList
        ++ field ++ "), ".toList ++ flags ++ ");".toList)
      ++ doCopyFunction field
  else if macroName = "uvm_field_string".toList then
    let field := arg args 0 "field"
    doPrintFunction ("printer.print_field_string(\"".toList ++ field ++ "\", ".toList ++ field
        ++ ", UVM_DEC);".toList)
      ++ doCopyFunction field
  else if macroName = "uvm_do".toList then
    let item := arg args 0 "item"
    sequenceBlock [createItem item, startItem item, randomizeItem item, finishItem item]
  else if macroName = "uvm_do_with".toList then
    let item := arg args 0 "item"
    sequenceBlock [createItem item, startItem item, randomizeItemWith item (arg args 1 ""),
      finishItem item]
  else if macroName = "uvm_do_on".toList then
    let item := arg args 0 "item"
    sequenceBlock [createItem item, startItem (item ++ ", ".toList ++ arg args 1 "sequencer"),
      randomizeItem item,
      finishItem item]
  else if macroName = "uvm_do_on_with".toList then
    let item := arg args 0 "item"
    sequenceBlock [createItem item, startItem (item ++ ", ".toList ++ arg args 1 "sequencer"),
      randomizeItemWith item (arg args 2 ""), finishItem item]
  else if macroName = "uvm_create".toList then
    createItem (arg args 0 "item")
  else if macroName = "uvm_send".toList then
    let item := arg args 0 "item"
    sequenceBlock [startItem item, finishItem item]
  else if macroName = "uvm_rand_send".toList then
    let item := arg args 0 "item"
    sequenceBlock [startItem item, randomizeItem item, finishItem item]
  else if macroName = "uvm_info".toList then
    let id := arg args 0 "\"ID\""
    let msg := arg args 1 "\"msg\""
    let verbosity := arg args 2 "UVM_MEDIUM"
    sequenceBlock
      ["if (uvm_report_enabled(".toList ++ verbosity ++ ", UVM_INFO, ".toList ++ id ++ "))".toList,
      "    uvm_report_info(".toList ++ id ++ ", $sformatf(".toList ++ msg
        ++ "), ".toList ++ verbosity
        ++ ", `__FILE__, `__LINE__);".toList]
  else if macroName = "uvm_error".toList then
    report "uvm_report_error" (arg args 0 "\"ID\"") (arg args 1 "\"msg\"")
  else if macroName = "uvm_warning".toList then
    report "uvm_report_warning" (arg args 0 "\"ID\"") (arg args 1 "\"msg\"")
  else if macroName = "uvm_fatal".toList then
    report "uvm_report_fatal" (arg args 0 "\"ID\"") (arg args 1 "\"msg\"")
  else if macroName = "uvm_component_utils_begin".toList
    ∨ macroName = "uvm_object_utils_begin".toList then
    let t := arg args 0 "T"
    registryTypedef "uvm_component_registry" t ++ getTypeFunction ++ objectTypeFunctions t
      ++ "\nfunction void build_phase(uvm_phase phase);\n    super.build_phase(phase);".toList
  else if macroName = "uvm_component_utils_end".toList
    ∨ macroName = "uvm_object_utils_end".toList then
    "endfunction".toList
  else if macroName = "uvm_set_type_override_by_type".toList then
    arg args 0 "A" ++ "::type_id::set_type_override(".toList ++ arg args 1 "B"
      ++ "::get_type());".toList
  else
    []

abbrev Expansion := Text × List SourceMapping

def pushCall (lineNum : Nat) (st : Expansion) (call : UVMMacroCall) : Expansion :=
  let expanded := expandOne call.macroName call.args
  let result := st.1 ++ expanded ++ ['\n']
  (result,
    st.2 ++ [{
      expandedStart := byteLen st.1
      expandedEnd := byteLen result
      originalFile := []
      originalLine := lineNum
      macroName := call.macroName
      macroArgs := call.args }])

-- The loop over the lines, from index `i` on; `calls` are the ones not consumed yet
def expandLines : List Text → Nat → List UVMMacroCall → Expansion → Expansion
  | [], _, _, st => st
  | line :: rest, i, calls, st =>
    let lineNum := i + 1
    let lineCalls := calls.takeWhile (·.line = lineNum)
    let calls := calls.dropWhile (·.line = lineNum)
    if lineCalls ≠ [] then
      let st := (st.1 ++ "// ".toList ++ line ++ ['\n'], st.2)
      expandLines rest (i + 1) calls (lineCalls.foldl (pushCall lineNum) st)
    else
      expandLines rest (i + 1) calls (st.1 ++ line ++ ['\n'], st.2)

def expand (source : Text) (calls : List UVMMacroCall) : Expansion :=
  if calls = [] then
    (source, [])
  else
    let sortedCalls := calls.insertionSort (·.line ≤ ·.line)
    expandLines (lines source) 0 sortedCalls ([], [])

/-! ## The mappings -/

-- `&s[start..end]`, if it does not panic
def slice? (s : Text) (start stop : Nat) : Option Text := do
  let (front, _) ← splitAtByte? stop s
  let (_, middle) ← splitAtByte? start front
  return middle

def located (st : Expansion) : List (Text × Option Text) :=
  st.2.map fun m => (m.macroName, slice? st.1 m.expandedStart m.expandedEnd)

def expansionOf (call : UVMMacroCall) : Text × Option Text :=
  (call.macroName, some (expandOne call.macroName call.args ++ ['\n']))

theorem slice?_append (front middle back : Text)
    : slice? (front ++ middle ++ back) (byteLen front) (byteLen (front ++ middle))
        = some middle := by
  unfold slice?
  rw [splitAtByte?_append]
  simp only [Option.bind_eq_bind, Option.bind_some]
  rw [splitAtByte?_append]
  rfl

theorem slice?_append_of_eq_some {s middle : Text} {start stop : Nat}
    (h : slice? s start stop = some middle) (more : Text)
    : slice? (s ++ more) start stop = some middle := by
  simp only [slice?, Option.bind_eq_bind, Option.bind_eq_some_iff, Prod.exists] at h
  have ⟨upTo, back, hstop, front, middle', hstart, heq⟩ := h
  cases heq
  have ⟨hs, hstop⟩ := splitAtByte?_eq_some hstop
  have ⟨hupTo, hstart⟩ := splitAtByte?_eq_some hstart
  rw [hs, hupTo, ← hstart, ← hstop, hupTo, List.append_assoc _ back more]
  apply slice?_append

theorem located_append {st : Expansion} {calls : List UVMMacroCall}
    (h : located st = calls.map expansionOf) (more : Text)
    : located (st.1 ++ more, st.2) = calls.map expansionOf := by
  rw [← h]
  apply List.map_congr_left
  intro m hm
  have hmem : (m.macroName, slice? st.1 m.expandedStart m.expandedEnd) ∈ located st :=
    List.mem_map_of_mem hm
  rw [h] at hmem
  have ⟨call, _, hcall⟩ := List.mem_map.mp hmem
  simp only [expansionOf, Prod.mk.injEq] at hcall
  rw [← hcall.2, slice?_append_of_eq_some hcall.2.symm]

theorem located_pushCall {st : Expansion} {calls : List UVMMacroCall}
    (h : located st = calls.map expansionOf) (lineNum : Nat) (call : UVMMacroCall)
    : located (pushCall lineNum st call) = (calls ++ [call]).map expansionOf := by
  have happend := located_append h (expandOne call.macroName call.args ++ ['\n'])
  simp only [located, pushCall, List.map_append, List.append_assoc] at *
  rw [happend]
  have hslice := slice?_append st.1 (expandOne call.macroName call.args ++ ['\n']) []
  simp only [List.append_nil] at hslice
  simp only [List.map_cons, List.map_nil, hslice]
  rfl

theorem located_foldl_pushCall {st : Expansion} {calls : List UVMMacroCall}
    (h : located st = calls.map expansionOf) (lineNum : Nat) (more : List UVMMacroCall)
    : located (more.foldl (pushCall lineNum) st) = (calls ++ more).map expansionOf := by
  induction more generalizing st calls with
  | nil => simpa using h
  | cons call rest ih =>
    have := ih (located_pushCall h lineNum call)
    simpa using this

theorem lt_line_of_mem_dropWhile {calls : List UVMMacroCall} {lineNum : Nat}
    (hsorted : calls.Pairwise (·.line ≤ ·.line)) (hle : ∀ call ∈ calls, lineNum ≤ call.line)
    {call : UVMMacroCall} (hcall : call ∈ calls.dropWhile (·.line = lineNum))
    : lineNum < call.line := by
  have hsorted' :=
    hsorted.sublist (List.dropWhile_sublist fun call : UVMMacroCall => decide (call.line = lineNum))
  have hhead :=
    List.head_dropWhile_not (fun call : UVMMacroCall => decide (call.line = lineNum))
      (List.ne_nil_of_mem hcall)
  cases hdrop : calls.dropWhile (·.line = lineNum) with
  | nil =>
    rw [hdrop] at hcall
    contradiction
  | cons first more =>
    have hfirst : lineNum < first.line := by
      have hmem : first ∈ calls := (List.dropWhile_suffix _).subset (hdrop ▸ List.mem_cons_self)
      have hne : first.line ≠ lineNum := by simpa [hdrop] using hhead
      exact Nat.lt_of_le_of_ne (hle first hmem) hne.symm
    rw [hdrop] at hcall hsorted'
    cases hcall with
    | head => exact hfirst
    | tail _ hmore => exact hfirst.trans_le (List.rel_of_pairwise_cons hsorted' hmore)

theorem located_expandLines {st : Expansion} {done : List UVMMacroCall}
    (h : located st = done.map expansionOf) (lines : List Text) (i : Nat)
    (calls : List UVMMacroCall) (hsorted : calls.Pairwise (·.line ≤ ·.line))
    (hlines : ∀ call ∈ calls, i < call.line ∧ call.line ≤ i + lines.length)
    : located (expandLines lines i calls st) = (done ++ calls).map expansionOf := by
  induction lines generalizing st done i calls with
  | nil =>
    cases calls with
    | nil => simpa [expandLines] using h
    | cons call rest =>
      have := hlines call List.mem_cons_self
      simp only [List.length_nil] at this
      omega
  | cons line rest ih =>
    have hsorted' : (calls.dropWhile (·.line = i + 1)).Pairwise (·.line ≤ ·.line) :=
      hsorted.sublist (List.dropWhile_sublist _)
    have hdrop : ∀ call ∈ calls.dropWhile (·.line = i + 1), i + 1 < call.line
        ∧ call.line ≤ i + 1 + rest.length := by
      intro call hcall
      have hbounds := hlines call ((List.dropWhile_suffix _).subset hcall)
      have hlt := lt_line_of_mem_dropWhile hsorted (fun call hcall => (hlines call hcall).1) hcall
      rw [List.length_cons] at hbounds
      omega
    simp only [expandLines]
    split
    . have hst := located_append h ("// ".toList ++ (line ++ ['\n']))
      have :=
        ih (located_foldl_pushCall hst (i + 1) (calls.takeWhile (·.line = i + 1))) (i + 1) _
          hsorted' hdrop
      simpa [List.append_assoc, List.takeWhile_append_dropWhile] using this
    . next htake =>
      have hst := located_append h (line ++ ['\n'])
      have := ih hst (i + 1) _ hsorted' hdrop
      have hcalls : calls.dropWhile (·.line = i + 1) = calls := by
        have :=
          List.takeWhile_append_dropWhile
            (p := fun call : UVMMacroCall => decide (call.line = i + 1)) (l := calls)
        simp only [ne_eq, Decidable.not_not] at htake
        rw [htake] at this
        exact this
      rw [hcalls] at this
      simpa [hcalls, List.append_assoc] using this

theorem located_expand_scan (source : Text)
    : located (expand source (Pass2Scanner.scan source))
        = (Pass2Scanner.scan source).map expansionOf := by
  unfold expand
  split
  . next h => simp [h, located]
  . rw [(Pass2Scanner.scan_pairwise source).insertionSort_eq]
    have hnil : located ([], []) = ([] : List UVMMacroCall).map expansionOf := rfl
    apply located_expandLines hnil
    . exact Pass2Scanner.scan_pairwise source
    . intro call hcall
      have := Pass2Scanner.line_of_mem_scan hcall
      omega

end Pass3Expander
end HdlGraph
