import HdlGraph.Library.Conditional
import HdlGraph.Library.Dict
import HdlGraph.Library.Text

/-!
This module contains pass 1 of the UVM preprocessor: conditional compilation, the define table,
include placeholders and the expansion of a macro at the start of a line. The stack of the pass
holds one boolean a level, so it keeps exactly the lines of the selected branches when the branches
behind a taken one have none to keep.
-/

namespace HdlGraph
namespace Pass1Standard

open Text Conditional

structure State where
  result : Text
  defines : Dict Text Text
  included : List Text

def State.init (defines : Dict Text Text) : State := ⟨[], defines, []⟩

def State.pushLine (st : State) (line : Text) : State :=
  { st with result := st.result ++ line ++ ['\n'] }

def argument (keyword trimmed : Text) : Text := trim (trimStartMatches keyword trimmed)

def keepLine (st : State) (line : Text) : State :=
  let trimmed := trim line
  if startsWith trimmed "`define ".toList then
    let rest := argument "`define ".toList trimmed
    if rest.any isWhitespace then
      let name := trim (rest.takeWhile (!isWhitespace ·))
      let value := trim (rest.dropWhile (!isWhitespace ·))
      { st with defines := st.defines.insert name value }
    else if rest ≠ [] then
      { st with defines := st.defines.insert rest [] }
    else
      st
  else if startsWith trimmed "`undef ".toList then
    { st with defines := st.defines.remove (argument "`undef ".toList trimmed) }
  else if startsWith trimmed "`include ".toList then
    let pathSpec := argument "`include ".toList trimmed
    let path := trimMatches '>' (trimMatches '<' (trimMatches '"' pathSpec))
    { st with
      included := st.included ++ [path]
      result := st.result ++ "// `include \"".toList ++ path ++ "\"\n".toList }
  else if startsWith trimmed "`".toList && !startsWith trimmed "``".toList then
    let macroName :=
      ((trimStartChar '`' trimmed).dropWhile isWhitespace).takeWhile (!isWhitespace ·)
    match st.defines.get? macroName with
    | some value => st.pushLine (line.takeWhile isWhitespace ++ value)
    | none => st.pushLine line
  else
    st.pushLine line

-- One line of the source. The head of the stack is its top.
def step (stack : List Bool) (st : State) (line : Text) : List Bool × State :=
  let trimmed := trim line
  if startsWith trimmed "`ifdef ".toList then
    let parentActive := stack.head?.getD true
    ((parentActive && st.defines.containsKey (argument "`ifdef ".toList trimmed)) :: stack, st)
  else if startsWith trimmed "`ifndef ".toList then
    let parentActive := stack.head?.getD true
    ((parentActive && !st.defines.containsKey (argument "`ifndef ".toList trimmed)) :: stack, st)
  else if startsWith trimmed "`elsif ".toList then
    let parentActive := stack.tail.head?.getD true
    ((parentActive && st.defines.containsKey (argument "`elsif ".toList trimmed)) :: stack.tail, st)
  else if trimmed = "`else".toList || startsWith trimmed "`else ".toList
    || startsWith trimmed "`else\t".toList then
    match stack with
    | top :: parentActive :: below => ((parentActive && !top) :: parentActive :: below, st)
    | stack => (stack, st)
  else if startsWith trimmed "`endif".toList then
    match stack.tail with
    | [] => ([true], st)
    | below => (below, st)
  else if stack.head?.getD true then
    (stack, keepLine st line)
  else
    (stack, st)

def runLines : List Text → List Bool → State → State
  | [], _, st => st
  | line :: rest, stack, st => runLines rest (step stack st line).1 (step stack st line).2

-- The preprocessed text and the included files; the pass does not look at the include directories
def run (source : Text) (defines : Dict Text Text) (_includeDirs : List Text) : Text × List Text :=
  let st := runLines (lines source) [true] (State.init defines)
  (st.result, st.included)

def kind (line : Text) : Kind :=
  let trimmed := trim line
  if startsWith trimmed "`ifdef ".toList then .opens
  else if startsWith trimmed "`ifndef ".toList then .opens
  else if startsWith trimmed "`elsif ".toList then .elsif
  else if trimmed = "`else".toList || startsWith trimmed "`else ".toList
    || startsWith trimmed "`else\t".toList then
    .otherwise
  else if startsWith trimmed "`endif".toList then .endif
  else .plain

def holds (st : State) (line : Text) : Bool :=
  let trimmed := trim line
  if startsWith trimmed "`ifdef ".toList then
    st.defines.containsKey (argument "`ifdef ".toList trimmed)
  else if startsWith trimmed "`ifndef ".toList
    then !st.defines.containsKey (argument "`ifndef ".toList trimmed)
  else st.defines.containsKey (argument "`elsif ".toList trimmed)

def dialect : Dialect Text State where
  kind := kind
  holds := holds
  keep := keepLine

def keptFrom : List Text → List Bool → State → List Bool
  | [], _, _ => []
  | line :: rest, stack, st =>
    let kept := keptFrom rest (step stack st line).1 (step stack st line).2
    if kind line = .plain then stack.head?.getD true :: kept else kept

def keptLines (source : Text) (defines : Dict Text Text) : List Bool :=
  keptFrom (lines source) [true] (State.init defines)

theorem step_eq (top : Bool) (below : List Bool) (st : State) (line : Text)
    : step (top :: below) st line
        =
      match kind line with
      | .plain => (top :: below, if top then keepLine st line else st)
      | .opens => ((top && holds st line) :: top :: below, st)
      | .elsif => ((below.head?.getD true && holds st line) :: below, st)
      | .otherwise =>
        (match below with | parent :: _ => (parent && !top) :: below | [] => [top], st)
      | .endif => (if below = [] then [true] else below, st) := by
  simp only [step, kind, holds]
  split
  . simp
  . split
    . simp
    . split
      . simp
      . split
        . cases below <;> simp
        . split
          . cases below <;> simp
          . cases top <;> simp

theorem step_isStep : IsStep dialect forgetful step where
  plain := by
    intro top below st line h
    rw [step_eq, show kind line = .plain from h]
    rfl
  opens := by
    intro top below st line h
    rw [step_eq, show kind line = .opens from h]
    rfl
  elsif := by
    intro top parent below st line h
    rw [step_eq, show kind line = .elsif from h]
    rfl
  otherwise := by
    intro top parent below st line h
    rw [step_eq, show kind line = .otherwise from h]
    rfl
  endif := by
    intro top parent below st line h
    rw [step_eq, show kind line = .endif from h]
    rfl

theorem runLines_isLoop : IsLoop dialect forgetful (fun _ st => st) runLines := by
  apply step_isStep.isLoop
  . intro line ls top below st h
    rfl
  . intro line ls stack st h
    rfl

theorem keptFrom_isLoop : IsLoop dialect forgetful List.cons keptFrom := by
  apply step_isStep.isLoop
  . intro line ls top below st h
    exact if_pos h
  . intro line ls stack st h
    exact if_neg h

theorem keptLines_eq {source : Text} (defines : Dict Text Text) {b : Block Text}
    (hlines : b.lines = lines source) (hspelled : b.Spelled dialect)
    : keptLines source defines = b.execKept dialect forgetful true (State.init defines) := by
  unfold keptLines
  have hloop := keptFrom_isLoop.block true [] [] b (State.init defines) hspelled
  rw [List.append_nil, hlines] at hloop
  rw [hloop]
  simp [keptFrom]

theorem run_eq {source : Text} (defines : Dict Text Text) (includeDirs : List Text) {b : Block Text}
    (hlines : b.lines = lines source) (hspelled : b.Spelled dialect)
    : run source defines includeDirs
        =
      ((b.execAfter dialect forgetful true (State.init defines)).result,
        (b.execAfter dialect forgetful true (State.init defines)).included) := by
  have hloop := runLines_isLoop.block true [] [] b (State.init defines) hspelled
  rw [List.append_nil, hlines, List.foldr_const] at hloop
  simp only [run, hloop, runLines, Function.iterate_fixed]

/--
The pass keeps the lines of the first branch whose condition holds, in every group, exactly if in no
group a branch behind it has lines to keep; it then writes what these lines alone give.
-/
theorem keptLines_eq_kept_iff {source : Text} (defines : Dict Text Text) (includeDirs : List Text)
    {b : Block Text} (hlines : b.lines = lines source) (hspelled : b.Spelled dialect)
    : (keptLines source defines = b.kept dialect true (State.init defines)
          ↔ b.regular dialect (State.init defines) = true)
      ∧ (b.regular dialect (State.init defines) = true →
          run source defines includeDirs
            =
          ((b.after dialect true (State.init defines)).result,
            (b.after dialect true (State.init defines)).included)) := by
  constructor
  . rw [keptLines_eq defines hlines hspelled]
    apply Block.execKept_eq_kept_iff
  . intro hregular
    rw [run_eq defines includeDirs hlines hspelled, Block.execAfter_of_regular dialect b _ hregular]

def ifdefElse : Block Text :=
  .group "`ifdef A".toList (.line "x".toList .nil)
    (.otherwise "`else".toList (.line "y".toList .nil) "`endif".toList) .nil

theorem keptLines_eq_kept_iff_ifdefElse
    : keptLines "`ifdef A\nx\n`else\ny\n`endif\n".toList (Dict.empty.insert "A".toList [])
        = [true, false]
      ∧ run "`ifdef A\nx\n`else\ny\n`endif\n".toList (Dict.empty.insert "A".toList []) []
        = ("x\n".toList, []) := by
  have h := keptLines_eq_kept_iff (Dict.empty.insert "A".toList []) []
    (show ifdefElse.lines = lines "`ifdef A\nx\n`else\ny\n`endif\n".toList by decide)
    (by decide)
  constructor
  . rw [h.1.mpr (by decide)]
    decide
  . rw [h.2 (by decide)]
    decide

def ifdefElsif : Block Text :=
  .group "`ifdef A".toList (.line "x".toList .nil)
    (.elsif "`elsif B".toList (.line "y".toList .nil) (.endif "`endif".toList)) .nil

theorem keptLines_both_branches
    : ifdefElsif.lines = lines "`ifdef A\nx\n`elsif B\ny\n`endif\n".toList
      ∧ ifdefElsif.Spelled dialect
      ∧ keptLines "`ifdef A\nx\n`elsif B\ny\n`endif\n".toList
          ((Dict.empty.insert "A".toList []).insert "B".toList []) = [true, true]
      ∧ ifdefElsif.kept dialect true
        (State.init ((Dict.empty.insert "A".toList []).insert "B".toList []))
          = [true, false]
      ∧ run "`ifdef A\nx\n`elsif B\ny\n`endif\n".toList
          ((Dict.empty.insert "A".toList []).insert "B".toList []) [] = ("x\ny\n".toList, []) := by
  refine ⟨by decide, by decide, by decide, by decide, by decide⟩

end Pass1Standard
end HdlGraph
