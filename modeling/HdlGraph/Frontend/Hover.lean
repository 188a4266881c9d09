import HdlGraph.Frontend.GotoDefinition
import HdlGraph.Library.LineCol
import HdlGraph.Library.Run
import HdlGraph.Library.Unicode

/-!
This module contains the hover of the language server, and that its range is never where the word
is.
-/

namespace HdlGraph
namespace Lsp

open Text

def extractWordAt (u : Unicode) (content : Text) (line col : Nat) : Option Text := do
  let chars ← (lines content)[line]?
  let c ← chars[col]?
  if u.isIdentifier c then
    let start := runStart u.isIdentifier chars col
    let stop := runEnd u.isIdentifier (chars.drop col) col
    return (chars.take stop).drop start
  else
    none

def formatNodeInfo (node : GraphNode) (symbols : SymbolTable) (symbol : Text) : Option Text := do
  let name ←
    match node.kind with
    | .module name | .class name _ | .package name | .interface name | .modulePort name
        _ | .signalDecl name _
    | .function name _ | .moduleInstance name _ | .property name | .method name _ | .coverGroup name
    | .coverPoint name | .sequenceDecl name | .propertyDecl name => symbols.resolve name
    | _ => none
  if name ≠ symbol then
    none
  else
    let quoted := "`".toList ++ name ++ "`".toList
    return match node.kind with
    | .module _ => "module ".toList ++ quoted
    | .class _ parent =>
      match parent.bind symbols.resolve with
      | some pname => "class ".toList ++ quoted ++ " extends `".toList ++ pname ++ "`".toList
      | none => "class ".toList ++ quoted
    | .package _ => "package ".toList ++ quoted
    | .interface _ => "interface ".toList ++ quoted
    | .modulePort _ direction =>
      let dir := match direction with
        | .input => "Input"
        | .output => "Output"
        | .inout => "Inout"
        | .ref => "Ref"
      "port ".toList ++ quoted ++ " (".toList ++ dir.toList ++ ")".toList
    | .signalDecl _ kind =>
      let sk := match kind with
        | .wire => "wire"
        | .reg => "reg"
        | .logic => "logic"
        | .integer => "integer"
        | .bit => "bit"
      "signal ".toList ++ quoted ++ " (".toList ++ sk.toList ++ ")".toList
    | .function _ isTask => (if isTask then "task " else "function ").toList ++ quoted
    | .moduleInstance _ moduleType =>
      match symbols.resolve moduleType with
      | some t => "instance ".toList ++ quoted ++ " : `".toList ++ t ++ "`".toList
      | none => "instance ".toList ++ quoted
    | _ => "symbol ".toList ++ quoted

structure Range where
  start : LineCol
  stop : LineCol
  deriving DecidableEq, Repr

structure Hover where
  value : Text
  range : Range
  deriving DecidableEq, Repr

namespace IndexState

def nodeInfo (state : IndexState) (symbol : Text) (nid : NodeId) : Option Text :=
  (state.graph.getNode nid).bind fun node => formatNodeInfo node state.symbols symbol

-- The ids of the files come in any order
def findHoverInfo (state : IndexState) (fuel : Nat) (symbol : Text)
    : List NodeId → Option (Option Text)
  | [] => some none
  | fid :: fids =>
    match Dfs.find (state.nodeInfo symbol) state.below fuel [fid] [] with
    | none => none
    | some (some info) => some (some info)
    | some none => findHoverInfo state fuel symbol fids

def hover (u : Unicode) (state : IndexState) (fuel : Nat) (content : Text) (line col : Nat)
    (fids : List NodeId)
    : Option (Option Hover) :=
  match extractWordAt u content line col with
  | none => some none
  | some symbol =>
    match state.findHoverInfo fuel symbol fids with
    | none => none
    | some none => some none
    -- The number of bytes of the word, and zero if there are fewer columns
    | some (some info) => some (some ⟨info, ⟨line, col - byteLen symbol⟩, ⟨line, col⟩⟩)

end IndexState

/-! ## The word -/

section

variable {u : Unicode} {content word : Text} {line col : Nat}

theorem extractWordAt_eq_some_iff
    : extractWordAt u content line col = some word
        ↔ ∃ chars, (lines content)[line]? = some chars ∧ chars[col]?.any u.isIdentifier = true
          ∧ (runAround u.isIdentifier chars col).word = word := by
  unfold extractWordAt
  cases hline : (lines content)[line]? with
  | none => simp
  | some chars =>
    cases hcol : chars[col]? with
    | none => simp [hcol]
    | some c =>
      have hle : col ≤ chars.length := Nat.le_of_lt (List.getElem?_eq_some_iff.mp hcol).1
      have hslice := (runAround u.isIdentifier chars col).slice_eq
      rw [start_runAround hle, stop_runAround hle] at hslice
      simp [hcol, hslice]

end

/-! ## The information -/

theorem resolve_of_formatNodeInfo {node : GraphNode} {symbols : SymbolTable} {symbol info : Text}
    (h : formatNodeInfo node symbols symbol = some info)
    : ∃ name, node.kind.nameField = some name ∧ symbols.resolve name = some symbol := by
  unfold formatNodeInfo at h
  cases hkind : node.kind
  all_goals
    simp only [hkind, Option.bind_eq_bind, Option.bind_eq_some_iff, reduceCtorEq, false_and,
      exists_false] at h
  all_goals
    obtain ⟨name, hname, hinfo⟩ := h
    split at hinfo
    . contradiction
    . next hsymbol =>
      rw [not_not] at hsymbol
      exact ⟨_, rfl, hsymbol ▸ hname⟩

/-- The information is about a node with the name of the word that is below one of the files. -/
theorem IndexState.findHoverInfo_sound {state : IndexState} {fuel : Nat} {symbol info : Text}
    {fids : List NodeId} (h : state.findHoverInfo fuel symbol fids = some (some info))
    : ∃ fid ∈ fids, ∃ nid, Dfs.Reaches state.below fid nid
        ∧ ∃ node name, state.graph.getNode nid = some node
        ∧ node.kind.nameField = some name ∧ state.symbols.resolve name = some symbol := by
  induction fids with
  | nil => cases h
  | cons fid fids ih =>
    rw [findHoverInfo] at h
    split at h
    . contradiction
    . next info' hfind =>
      obtain ⟨nid, hreaches, hinfo⟩ := (Dfs.find_spec hfind).1 _ rfl
      obtain ⟨node, hnode, hformat⟩ := Option.bind_eq_some_iff.mp hinfo
      obtain ⟨name, hname, hresolve⟩ := resolve_of_formatNodeInfo hformat
      exact ⟨fid, List.mem_cons_self, nid, hreaches, node, name, hnode, hname, hresolve⟩
    . obtain ⟨fid', hmem, hrest⟩ := ih h
      exact ⟨fid', List.mem_cons_of_mem _ hmem, hrest⟩

/-! ## The range -/

def readAt (content : Text) (range : Range) : Option Text :=
  (lines content)[range.start.line]?.map fun chars =>
    (chars.take range.stop.col).drop range.start.col

/-- From the first character of the word around the cursor to behind its last. -/
def AtWord (u : Unicode) (content : Text) (line col : Nat) (range : Range) : Prop :=
  ∃ chars, (lines content)[line]? = some chars
    ∧ range.start = ⟨line, (runAround u.isIdentifier chars col).start⟩
    ∧ range.stop = ⟨line, (runAround u.isIdentifier chars col).stop⟩

/-- Reading the document in the range gives the word. -/
def ReadsWord (u : Unicode) (content : Text) (line col : Nat) (range : Range) : Prop :=
  readAt content range = extractWordAt u content line col

namespace IndexState

variable {u : Unicode} {state : IndexState} {fuel line col : Nat} {content : Text}
  {fids : List NodeId} {hover : Hover}

theorem range_of_hover (h : state.hover u fuel content line col fids = some (some hover))
    : ∃ symbol, extractWordAt u content line col = some symbol
        ∧ hover.range = ⟨⟨line, col - byteLen symbol⟩, ⟨line, col⟩⟩ := by
  unfold IndexState.hover at h
  split at h
  . cases h
  . next symbol hsymbol =>
    split at h
    . contradiction
    . cases h
    . rw [Option.some.injEq, Option.some.injEq] at h
      exact ⟨symbol, hsymbol, h ▸ rfl⟩

/--
The range is never that of the word: it ends where the cursor is, and the cursor is on the word.
-/
theorem not_atWord_of_hover (h : state.hover u fuel content line col fids = some (some hover))
    : ¬AtWord u content line col hover.range ∧ ¬ReadsWord u content line col hover.range := by
  obtain ⟨symbol, hsymbol, hrange⟩ := range_of_hover h
  obtain ⟨chars, hline, hcol, hword⟩ := extractWordAt_eq_some_iff.mp hsymbol
  have hstop := lt_stop_runAround hcol
  constructor
  . rintro ⟨chars', hline', _, hstop'⟩
    rw [hline, Option.some.injEq] at hline'
    rw [hrange, LineCol.mk.injEq, ← hline'] at hstop'
    exact Nat.ne_of_lt hstop hstop'.2
  . intro hreads
    obtain ⟨c, hc, _⟩ := (Option.any_eq_true _ _).mp hcol
    have hle : col ≤ chars.length := Nat.le_of_lt (List.getElem?_eq_some_iff.mp hc).1
    rw [ReadsWord, hsymbol, readAt, hrange, hline, Option.map_some, Option.some.injEq, ← hword]
      at hreads
    exact Run.slice_ne_word _ (start_runAround_le hle) hstop _ hreads

theorem hover_twoPackages
    : (buildIndex IndexedProject.parsePackage ⟨false, [.curDir]⟩ twoPackages).hover Unicode.ascii 4
          "package p; endpackage".toList 0 8 [1, 2]
        = some (some ⟨"package `p`".toList, ⟨0, 7⟩, ⟨0, 8⟩⟩) := by
  decide

theorem not_atWord_of_hover_twoPackages
    : ¬AtWord Unicode.ascii "package p; endpackage".toList 0 8 ⟨⟨0, 7⟩, ⟨0, 8⟩⟩
        ∧ ¬ReadsWord Unicode.ascii "package p; endpackage".toList 0 8 ⟨⟨0, 7⟩, ⟨0, 8⟩⟩ :=
  not_atWord_of_hover hover_twoPackages

theorem not_hover_atWord
    : ¬∀ state fuel content line col fids hover,
        IndexState.hover Unicode.ascii state fuel content line col fids = some (some hover) →
        AtWord Unicode.ascii content line col hover.range
          ∧ ReadsWord Unicode.ascii content line col hover.range := by
  intro h
  have hreads := (h _ _ _ _ _ _ _ hover_twoPackages).2
  revert hreads
  unfold ReadsWord
  decide

end IndexState
end Lsp
end HdlGraph
