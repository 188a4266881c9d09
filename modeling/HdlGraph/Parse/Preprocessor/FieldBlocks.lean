import HdlGraph.Library.Words
import HdlGraph.Parse.Preprocessor.Preprocess

/-!
This module contains the field automation blocks of a source and the text that the preprocessor puts
in their place. The line that begins a block is expanded as a registration and as the beginning of a
block, so the text is well-formed only if there is none.
-/

namespace HdlGraph
namespace Preprocessor

open Text Conditional Pass1Standard Pass2Scanner Pass3Expander

/-! ## The output line by line -/

def expandedText (text : Text) : Text :=
  ((lines text).map fun line => kept line ++ expansions (callsOn line 0)).flatten

-- What the whole preprocessor writes for each line of the source
def outputs (source : Text) (defines : Dict Text Text) : List Text :=
  if scan (emissions source defines).flatten = [] then emissions source defines
  else (emissions source defines).map expandedText

theorem expansions_callsOn (line : Text) (i : Nat)
    : expansions (callsOn line i) = expansions (callsOn line 0) := by
  have hargs (text : Text) : (extractArgs text i).1 = (extractArgs text 0).1 := by
    unfold extractArgs
    split <;> rfl
  simp only [expansions, callsOn, List.map_filterMap, scanName, Option.map_map,
    Function.comp_def, hargs]

theorem expandedText_append {s : Text} (h : EndsLine s) (t : Text)
    : expandedText (s ++ t) = expandedText s ++ expandedText t := by
  unfold expandedText
  rw [h.lines_append, List.map_append, List.flatten_append]

theorem expandedText_flatten {texts : List Text} (h : ∀ s ∈ texts, EndsLine s)
    : expandedText texts.flatten = (texts.map expandedText).flatten := by
  induction texts with
  | nil => rfl
  | cons s rest ih =>
    rw [List.flatten_cons, expandedText_append (h s List.mem_cons_self),
      ih fun s hs => h s (List.mem_cons_of_mem _ hs)]
    rfl

theorem expand_text {source : Text} (h : scan source ≠ [])
    : (expand source (scan source)).1 = expandedText source := by
  have hsome := exists_hasCall_of_scan_ne_nil h
  rw [(expand_eq hsome).1]
  unfold expandedText
  apply congrArg List.flatten
  refine (List.map_congr_left
    (g := (fun line => kept line ++ expansions (callsOn line 0)) ∘ Prod.fst) ?_).trans ?_
  . rintro ⟨line, i⟩ _
    exact congrArg (kept line ++ ·) (expansions_callsOn line i)
  . rw [← List.map_map, List.zipIdx_map_fst]

theorem expandedSource_eq (source filePath : Text) (defines : Dict Text Text)
    (includeDirs : List Text)
    : (preprocess source filePath defines includeDirs).expandedSource
        = (outputs source defines).flatten := by
  have htext : (preprocess source filePath defines includeDirs).expandedSource
      = (expand (Pass1Standard.run source defines includeDirs).1
          (scan (Pass1Standard.run source defines includeDirs).1)).1 :=
    rfl
  rw [htext, run_text]
  unfold outputs
  split
  . next h =>
    unfold expand
    rw [if_pos h]
  . next h =>
    rw [expand_text h]
    exact expandedText_flatten fun text htext => endsLine_of_mem_emissionsFrom htext

/-! ## Functions -/

inductive Keyword where
  | function (name : Text)
  | endfunction
deriving DecidableEq

def wordsOf (s : Text) : List Text := (Words.words isWordChar s).filter (· ≠ [])

-- The keyword on a line, outside of a line comment. The name of a function is the word before the
-- parenthesis.
def keywordOn (line : Text) : Option Keyword :=
  let code := (before? "//".toList line).getD line
  let header := wordsOf (code.takeWhile (· ≠ '('))
  if (wordsOf code).contains "endfunction".toList then some .endfunction
  else if header.contains "function".toList then some (.function (header.getLast?.getD []))
  else none

def keywords (text : Text) : List Keyword := (lines text).filterMap keywordOn

-- Every function is closed before the next one is opened
def Alternates : (isOpen : Bool) → List Keyword → Prop
  | isOpen, [] => isOpen = false
  | isOpen, .function _ :: rest => isOpen = false ∧ Alternates true rest
  | isOpen, .endfunction :: rest => isOpen = true ∧ Alternates false rest

def declared (text : Text) : List Text :=
  (keywords text).filterMap fun | .function name => some name | .endfunction => none

structure WellFormed (text : Text) : Prop where
  alternates : Alternates false (keywords text)
  nodup : (declared text).Nodup

theorem declared_append {s : Text} (h : EndsLine s) (t : Text)
    : declared (s ++ t) = declared s ++ declared t := by
  unfold declared keywords
  rw [h.lines_append, List.filterMap_append, List.filterMap_append]

/-! ## Blocks -/

inductive BlockMacro where
  | componentUtils
  | objectUtils
deriving DecidableEq, Repr

namespace BlockMacro

def utils : BlockMacro → Text
  | componentUtils => "uvm_component_utils".toList
  | objectUtils => "uvm_object_utils".toList

def beginName (m : BlockMacro) : Text := m.utils ++ "_begin".toList

def endName (m : BlockMacro) : Text := m.utils ++ "_end".toList

end BlockMacro

def IsMacroLine (name line : Text) : Prop :=
  ∃ lead rest, line = lead ++ '`' :: (name ++ rest) ∧ (∀ c ∈ lead, isWhitespace c)
    ∧ rest.head?.any isIdentChar = false

def macroWord (line : Text) : Text :=
  ((trimStartChar '`' (trim line)).dropWhile isWhitespace).takeWhile (!isWhitespace ·)

structure FieldBlock (source : Text) (defines : Dict Text Text) where
  front : List Text
  beginLine : Text
  fields : List Text
  endLine : Text
  behind : List Text
  blockMacro : BlockMacro
  lines_eq : lines source = front ++ (beginLine :: (fields ++ endLine :: behind))
  begins : IsMacroLine blockMacro.beginName beginLine
  isField : ∀ line ∈ fields, IsMacroLine "uvm_field_int".toList line
    ∨ IsMacroLine "uvm_field_string".toList line
  ends : IsMacroLine blockMacro.endName endLine
  -- the macro that begins the block is the one of the library
  notDefined : (after front [true] (State.init defines)).2.defines.get? (macroWord beginLine) = none

namespace FieldBlock

variable {source : Text} {defines : Dict Text Text}

def lines (b : FieldBlock source defines) : List Text := b.beginLine :: (b.fields ++ [b.endLine])

def text (b : FieldBlock source defines) : Text :=
  (((outputs source defines).drop b.front.length).take b.lines.length).flatten

def IsInactive (b : FieldBlock source defines) : Prop :=
  (after b.front [true] (State.init defines)).1.head?.getD true = false

end FieldBlock

/-! ## What pass 1 makes of the lines -/

theorem exists_trim_eq {name line : Text} (h : IsMacroLine name line)
    (hname : "uvm_".toList <+: name)
    : ∃ rest, trim line = '`' :: 'u' :: 'v' :: 'm' :: '_' :: rest := by
  obtain ⟨lead, rest, rfl, hlead, _⟩ := h
  obtain ⟨more, rfl⟩ := hname
  have htick : isWhitespace '`' = false := by decide
  have hunderscore : isWhitespace '_' = false := by decide
  obtain ⟨rest', hrest⟩ := exists_trimEnd_append_cons "`uvm".toList hunderscore (more ++ rest)
  refine ⟨rest', ?_⟩
  rw [trim_append_left _ hlead, trim, trimStart, List.dropWhile_cons_of_neg (by simp [htick])]
  exact hrest

theorem kind_eq_plain {line rest : Text} (h : trim line = '`' :: 'u' :: 'v' :: 'm' :: '_' :: rest)
    : kind line = .plain := by
  simp [kind, h, startsWith]

theorem emitted_of_macroLine {stack : List Bool} (hactive : stack.head?.getD true = true)
    {st : State} {line rest : Text} (h : trim line = '`' :: 'u' :: 'v' :: 'm' :: '_' :: rest)
    (hnone : st.defines.get? (macroWord line) = none)
    : emitted stack st line = line ++ ['\n'] := by
  have hdefine : startsWith (trim line) "`define ".toList = false := by rw [h]; rfl
  have hundef : startsWith (trim line) "`undef ".toList = false := by rw [h]; rfl
  have hinclude : startsWith (trim line) "`include ".toList = false := by rw [h]; rfl
  have hmacro : (startsWith (trim line) "`".toList && !startsWith (trim line) "``".toList)
      = true := by
    rw [h]
    rfl
  have hnone : st.defines.get?
        (((trimStartChar '`' (trim line)).dropWhile isWhitespace).takeWhile (!isWhitespace ·))
      = none := hnone
  rw [emitted_eq, if_pos ⟨kind_eq_plain h, hactive⟩]
  unfold keepLine
  dsimp only
  rw [hdefine, if_neg Bool.false_ne_true, hundef, if_neg Bool.false_ne_true, hinclude,
    if_neg Bool.false_ne_true, hmacro, if_pos rfl, hnone]
  rfl

theorem emissionsFrom_of_inactive {ls : List Text} (h : ∀ line ∈ ls, kind line = .plain)
    {stack : List Bool} (hinactive : stack.head?.getD true = false) (st : State)
    : emissionsFrom ls stack st = ls.map fun _ => [] := by
  induction ls generalizing st with
  | nil => rfl
  | cons line rest ih =>
    have hplain := h line List.mem_cons_self
    obtain ⟨below, rfl⟩ : ∃ below, stack = false :: below := by
      cases stack with
      | nil => contradiction
      | cons top below => exact ⟨below, by rw [show top = false from hinactive]⟩
    have hemitted : emitted (false :: below) st line = [] := by
      rw [emitted_eq, if_neg (by simp)]
    have hstep : step (false :: below) st line = (false :: below, st) := by
      rw [step_eq, hplain]
      rfl
    rw [emissionsFrom, hemitted, hstep, ih fun line hline => h line (List.mem_cons_of_mem _ hline)]
    rfl

theorem emissionsFrom_append (front back : List Text) (stack : List Bool) (st : State)
    : emissionsFrom (front ++ back) stack st
        = emissionsFrom front stack st ++ emissionsFrom back (after front stack st).1
          (after front stack st).2 := by
  induction front generalizing stack st with
  | nil => rfl
  | cons line rest ih => exact congrArg (emitted stack st line :: ·) (ih _ _)

/-! ## The functions of a line that begins a block -/

theorem getType_mem_declared (front : Text) {more : Text}
    (h : more = [] ∨ ∃ more', more = '\n' :: more')
    : "get_type".toList ∈ declared (front ++ getTypeFunction ++ more ++ ['\n']) := by
  obtain ⟨behind, hbehind⟩ : ∃ behind, more ++ ['\n'] = '\n' :: behind := by
    rcases h with rfl | ⟨more', rfl⟩
    . exact ⟨[], rfl⟩
    . exact ⟨more' ++ ['\n'], rfl⟩
  have hfunction : getTypeFunction
      = ['\n'] ++ (("static function type_id get_type();".toList ++ ['\n'])
          ++ "    return type_id::get();\nendfunction".toList) :=
    rfl
  have hsplit : front ++ getTypeFunction ++ more ++ ['\n']
      = (front ++ ['\n']) ++ (("static function type_id get_type();".toList ++ ['\n'])
          ++ ("    return type_id::get();\nendfunction".toList ++ '\n' :: behind)) := by
    rw [List.append_assoc _ more, hbehind, hfunction]
    simp only [List.append_assoc]
  rw [hsplit, declared_append (endsLine_append _), declared_append (endsLine_append _)]
  have hdeclared : declared ("static function type_id get_type();".toList ++ ['\n'])
      = ["get_type".toList] := by
    decide +kernel
  rw [hdeclared]
  exact List.mem_append_right _ (List.mem_append_left _ List.mem_cons_self)

theorem getType_mem_declared_utils (m : BlockMacro) (args : List Text)
    : "get_type".toList ∈ declared (expandOne m.utils args ++ ['\n']) := by
  obtain ⟨front, t, hutils⟩ : ∃ front t,
    expandOne m.utils args = front ++ getTypeFunction ++ objectTypeFunctions t := by
    cases m <;> exact ⟨_, _, rfl⟩
  rw [hutils]
  exact getType_mem_declared front (.inr ⟨_, rfl⟩)

theorem getType_mem_declared_begin (m : BlockMacro) (args : List Text)
    : "get_type".toList ∈ declared (expandOne m.beginName args ++ ['\n']) := by
  obtain ⟨front, t, more, hbegin⟩ : ∃ front t more,
      expandOne m.beginName args = front ++ getTypeFunction ++ objectTypeFunctions t ++ more := by
    cases m <;> exact ⟨_, _, _, rfl⟩
  rw [hbegin, List.append_assoc _ (objectTypeFunctions t)]
  exact getType_mem_declared front (.inr ⟨_, rfl⟩)

theorem declared_expansions (calls : List UVMMacroCall)
    : declared (expansions calls)
        = (calls.map fun call =>
          declared (expandOne call.macroName call.args ++ ['\n'])).flatten := by
  induction calls with
  | nil => rfl
  | cons call rest ih =>
    unfold expansions at *
    rw [List.map_cons, List.flatten_cons, declared_append (endsLine_append _), ih]
    rfl

theorem endsLine_expansions (calls : List UVMMacroCall) : EndsLine (expansions calls) := by
  induction calls with
  | nil => exact endsLine_nil
  | cons call rest ih => exact (endsLine_append _).append ih

theorem exists_scanName {line name : Text} (h : contains line ('`' :: name) = true)
    : ∃ call, scanName line 0 name = some call ∧ call.macroName = name := by
  rw [contains, Option.isSome_iff_exists] at h
  obtain ⟨found, hfound⟩ := h
  unfold scanName
  rw [hfound]
  exact ⟨_, rfl, rfl⟩

theorem not_nodup_declared_expansions {line name name' f : Text}
    (hsublist : [name, name'].Sublist uvmNames) (hname : contains line ('`' :: name) = true)
    (hname' : contains line ('`' :: name') = true)
    (hf : ∀ args, f ∈ declared (expandOne name args ++ ['\n']))
    (hf' : ∀ args, f ∈ declared (expandOne name' args ++ ['\n']))
    : ¬(declared (expansions (callsOn line 0))).Nodup := by
  obtain ⟨call, hcall, rfl⟩ := exists_scanName hname
  obtain ⟨call', hcall', rfl⟩ := exists_scanName hname'
  have hcalls : [call, call'].Sublist (callsOn line 0) := by
    have := hsublist.filterMap (scanName line 0)
    rwa [List.filterMap_cons_some hcall, List.filterMap_cons_some hcall'] at this
  rw [declared_expansions, List.nodup_flatten]
  rintro ⟨_, hdisjoint⟩
  have hpair :=
    hdisjoint.sublist
      (hcalls.map fun call => declared (expandOne call.macroName call.args ++ ['\n']))
  exact (List.pairwise_cons.mp hpair).1 _ List.mem_cons_self (hf _) (hf' _)

theorem contains_of_isMacroLine {name name' line : Text} (h : IsMacroLine name line)
    (hstarts : name' <+: name)
    : contains line ('`' :: name') = true := by
  obtain ⟨lead, rest, rfl, _⟩ := h
  obtain ⟨more, rfl⟩ := hstarts
  rw [contains_iff]
  exact ⟨lead, more ++ rest, by simp⟩

theorem exists_lines_eq {line : Text} (h : '\n' ∉ line)
    : ∃ line', Text.lines (line ++ ['\n']) = [line'] ∧ (line = line' ∨ line = line' ++ ['\r']) := by
  have hgo (acc : Text) : Text.lines.go acc (line ++ ['\n'])
      = [Text.lines.stripCr (line.reverse ++ acc)] := by
    induction line generalizing acc with
    | nil => rfl
    | cons c rest ih =>
      rw [List.cons_append, Text.lines.go, if_neg (List.ne_of_not_mem_cons h).symm,
        ih (List.not_mem_of_not_mem_cons h)]
      simp
  have hlines := hgo []
  rw [List.append_nil] at hlines
  refine ⟨_, hlines, ?_⟩
  unfold Text.lines.stripCr
  split
  . next acc hacc =>
    right
    rw [← List.reverse_reverse line, hacc, List.reverse_cons]
  . left
    rw [List.reverse_reverse]

theorem endsLine_kept (line : Text) : EndsLine (kept line) := by
  unfold kept
  split <;> exact endsLine_append _

namespace FieldBlock

variable {source : Text} {defines : Dict Text Text}

def written (b : FieldBlock source defines) : List Text :=
  emissionsFrom b.lines (after b.front [true] (State.init defines)).1
    (after b.front [true] (State.init defines)).2

theorem exists_emissions_eq (b : FieldBlock source defines)
    : ∃ front behind, emissions source defines = front ++ (b.written ++ behind)
        ∧ front.length = b.front.length := by
  have hlines : Text.lines source = b.front ++ (b.lines ++ b.behind) := by
    rw [b.lines_eq]
    simp [lines]
  have heq := emissionsFrom_append b.front (b.lines ++ b.behind) [true] (State.init defines)
  rw [emissionsFrom_append b.lines, ← hlines] at heq
  exact ⟨_, _, heq, length_emissionsFrom b.front [true] (State.init defines)⟩

theorem text_eq (b : FieldBlock source defines)
    : b.text
        = if scan (emissions source defines).flatten = [] then b.written.flatten
          else (b.written.map expandedText).flatten := by
  obtain ⟨front, behind, heq, hfront⟩ := b.exists_emissions_eq
  have hwritten : b.written.length = b.lines.length := length_emissionsFrom _ _ _
  have hpiece {texts : List Text} {f : Text →
      Text} (h : texts = (front ++ (b.written ++ behind)).map f) :
      (texts.drop b.front.length).take b.lines.length = b.written.map f := by
    rw [h, List.map_append, List.map_append, List.drop_left' (by simpa using hfront),
      List.take_left' (by simpa using hwritten)]
  unfold text outputs
  split
  . rw [hpiece (f := id) (by rw [heq, List.map_id]), List.map_id]
  . rw [hpiece (by rw [heq])]

theorem kind_of_mem_lines (b : FieldBlock source defines)
    : ∀ line ∈ b.lines, kind line = .plain := by
  have hkind {name line : Text} (h : IsMacroLine name line) (hname : "uvm_".toList <+: name) : kind
      line = .plain := by
    obtain ⟨rest, hrest⟩ := exists_trim_eq h hname
    exact kind_eq_plain hrest
  intro line hline
  rw [lines, List.mem_cons, List.mem_append, List.mem_singleton] at hline
  rcases hline with rfl | hfield | rfl
  . exact hkind b.begins (by cases b.blockMacro <;> decide)
  . rcases b.isField line hfield with h | h
    . exact hkind h (by decide)
    . exact hkind h (by decide)
  . exact hkind b.ends (by cases b.blockMacro <;> decide)

theorem text_eq_nil (b : FieldBlock source defines) (h : b.IsInactive) : b.text = [] := by
  have hwritten : b.written = b.lines.map fun _ => [] :=
    emissionsFrom_of_inactive b.kind_of_mem_lines h _
  rw [b.text_eq, hwritten, List.map_map]
  split
  . simp
  . have hnil : expandedText ∘ (fun _ : Text => []) = fun _ => [] := rfl
    rw [hnil]
    simp

theorem not_nodup_text (b : FieldBlock source defines) (h : ¬b.IsInactive)
    : ¬(declared b.text).Nodup := by
  have hactive : (after b.front [true] (State.init defines)).1.head?.getD true = true := by
    simpa [IsInactive] using h
  obtain ⟨rest, htrim⟩ := exists_trim_eq b.begins (by cases b.blockMacro <;> decide)
  obtain ⟨more, hwritten⟩ : ∃ more, b.written = (b.beginLine ++ ['\n']) :: more := by
    rw [written, lines, emissionsFrom, emitted_of_macroLine hactive htrim b.notDefined]
    exact ⟨_, rfl⟩
  have hline : '\n' ∉ b.beginLine := by
    apply newline_not_mem_of_mem_lines (s := source)
    rw [b.lines_eq]
    exact List.mem_append_right _ List.mem_cons_self
  obtain ⟨line', hlines, hline'⟩ := exists_lines_eq hline
  have hcontains {name : Text} (hname : name <+: b.blockMacro.beginName)
      (hcr : '\r' ∉ '`' :: name) :
      contains line' ('`' :: name) = true := by
    have := contains_of_isMacroLine b.begins hname
    rcases hline' with heq | heq
    . rwa [← heq]
    . rw [heq, contains_append_cons hcr] at this
      simpa [contains, find?] using this
  have hutils : contains line' ('`' :: b.blockMacro.utils) = true :=
    hcontains (List.prefix_append _ _) (by cases b.blockMacro <;> decide)
  have hbegin : contains line' ('`' :: b.blockMacro.beginName) = true :=
    hcontains List.prefix_rfl (by cases b.blockMacro <;> decide)
  have hscan : scan (emissions source defines).flatten ≠ [] := by
    obtain ⟨front, behind, heq, _⟩ := b.exists_emissions_eq
    intro hnil
    rw [scan_eq_nil_iff] at hnil
    have hmem : line' ∈ Text.lines (emissions source defines).flatten := by
      rw [lines_emissions, heq, hwritten]
      simp [hlines]
    have hcall := hnil line' hmem
    rw [hasCall, List.any_eq_false] at hcall
    exact hcall b.blockMacro.utils (by cases b.blockMacro <;> decide) hutils
  have htext : b.text
      = kept line' ++ (expansions (callsOn line' 0) ++ (more.map expandedText).flatten) := by
    rw [b.text_eq, if_neg hscan, hwritten, List.map_cons, List.flatten_cons, expandedText, hlines]
    simp
  rw [htext, declared_append (endsLine_kept _), declared_append (endsLine_expansions _)]
  intro hnodup
  have hexpansions := ((List.nodup_append.mp (List.nodup_append.mp hnodup).2.1)).1
  exact not_nodup_declared_expansions (by cases b.blockMacro <;> decide) hutils hbegin
    (getType_mem_declared_utils b.blockMacro) (getType_mem_declared_begin b.blockMacro) hexpansions

end FieldBlock

/--
The text for a field automation block is well-formed exactly if the block lies in an inactive
region, where there is none.
-/
theorem FieldBlock.wellFormed_text_iff {source : Text} {defines : Dict Text Text}
    (b : FieldBlock source defines)
    : WellFormed b.text ↔ b.IsInactive := by
  constructor
  . intro h
    by_contra hactive
    exact b.not_nodup_text hactive h.nodup
  . intro h
    rw [b.text_eq_nil h]
    exact ⟨rfl, List.nodup_nil⟩

def driverBlock
    : FieldBlock
        "`uvm_component_utils_begin(driver)\n`uvm_field_int(n, UVM_ALL_ON)\n`uvm_component_utils_end\n".toList
        Dict.empty where
  front := []
  beginLine := "`uvm_component_utils_begin(driver)".toList
  fields := ["`uvm_field_int(n, UVM_ALL_ON)".toList]
  endLine := "`uvm_component_utils_end".toList
  behind := []
  blockMacro := .componentUtils
  lines_eq := by decide
  begins := ⟨[], "(driver)".toList, by decide, nofun, by decide⟩
  isField := by
    intro line hline
    rw [List.mem_singleton.mp hline]
    exact .inl ⟨[], "(n, UVM_ALL_ON)".toList, by decide, nofun, by decide⟩
  ends := ⟨[], [], by decide, nofun, by decide⟩
  notDefined := by decide

-- `get_type` is declared twice by the first line alone
theorem not_wellFormed_driverBlock : ¬driverBlock.IsInactive ∧ ¬WellFormed driverBlock.text := by
  have hactive : ¬driverBlock.IsInactive := by
    unfold FieldBlock.IsInactive
    decide
  exact ⟨hactive, fun h => driverBlock.not_nodup_text hactive h.nodup⟩

end Preprocessor
end HdlGraph
