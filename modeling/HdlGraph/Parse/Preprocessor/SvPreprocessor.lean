import HdlGraph.Library.Conditional
import HdlGraph.Parse.Preprocessor.SvMacro

/-!
This module contains the standalone preprocessor: the loop over the lines of a source, include files
and the define table that the lines share. The loop is shown to evaluate the conditional groups of a
source as their nesting says.
-/

namespace HdlGraph
namespace SvPreprocessor

open Text Conditional

structure FileSystem (π : Type) where
  canonicalize : π → Option π
  readToString : π → Option Text
  isPresent : π → Bool
  parent : π → Option π
  join : π → Text → π
  display : π → Text

structure State (π : Type) where
  result : Text
  defines : Dict Text MacroDef
  visited : List π

variable {π : Type} (fs : FileSystem π) (order : Dict Text Text → List Text)

def State.push (st : State π) (s : Text) : State π := { st with result := st.result ++ s }

def commented (line : Text) : Text := "// ".toList ++ line ++ ['\n']

def stripDirective (line : Text) (directive : String) : Option Text :=
  (stripPrefix? ('`' :: directive.toList) line).filter fun rest => rest.head?.all isWhitespace

def resolveInclude (incPath : Text) (currentFile : π) (includeDirs : List π) : Option π :=
  (((fs.parent currentFile).map (fs.join · incPath)).filter fs.isPresent)
    <|> (includeDirs.map (fs.join · incPath)).find? fs.isPresent

def parseDefine (afterName : Text) : Except Halt MacroDef :=
  match afterName with
  | '(' :: paramsAndBody =>
    match findMatchingParen paramsAndBody with
    | some parenClose =>
      -- the count of characters is used as a byte offset
      match splitAtByte? parenClose paramsAndBody, splitAtByte? (parenClose + 1) paramsAndBody with
      | some (paramsStr, _), some (_, body) =>
        let (paramNames, defaults) := parseMacroParams (trim paramsStr)
        .ok (.function paramNames defaults (trim body))
      | _, _ => .error .panic
    | none => .ok (.object afterName)
  | _ => .ok (.object afterName)

def passThrough : List String :=
  ["pragma", "celldefine", "endcelldefine", "default_nettype", "undefineall",
    "resetall", "timescale",
    "begin_keywords", "end_keywords", "line"]

section

-- the call of `preprocessSvFile` for an included file
variable (preprocessFile : π → Dict Text MacroDef → List π → Except Halt (State π))
variable (includeDirs : List π) (currentFile : π)

def processLine (st : State π) (line : Text) : Except Halt (State π) :=
  let trimmed := trim line
  match stripDirective trimmed "define" with
  | some rest =>
    let rest := trim rest
    let name := trim (rest.takeWhile fun c => !(isWhitespace c || c = '('))
    let afterName := trimStart (rest.dropWhile fun c => !(isWhitespace c || c = '('))
    if name = [] then
      .ok (st.push (commented line))
    else do
      let macroDef ← parseDefine afterName
      return { st.push (commented line) with defines := st.defines.insert name macroDef }
  | none =>
    match stripDirective trimmed "undef" with
    | some rest => .ok { st.push (commented line) with defines := st.defines.remove (trim rest) }
    | none =>
      match stripDirective trimmed "include" with
      | some rest =>
        let incPath :=
          trim (trimEndChar '>'
            (trimStartChar '<' (trimEndChar '"' (trimStartChar '"' (trim rest)))))
        match resolveInclude fs incPath currentFile includeDirs with
        | some resolvedPath => do
          let inlined ← preprocessFile resolvedPath st.defines st.visited
          return { inlined with result := st.result ++ inlined.result }
        | none =>
          .ok (st.push ("// `include \"".toList ++ incPath ++ "\" // not resolved\n".toList))
      | none =>
        if passThrough.any fun directive => (stripDirective trimmed directive).isSome then
          .ok (st.push (commented line))
        else do
          let expanded ← expandInlineMacros order line st.defines
          return st.push (expanded ++ ['\n'])

end

structure IfdefState where
  parentActive : Bool
  thisActive : Bool
  hasMatched : Bool
deriving DecidableEq, Repr

def IfdefState.active (f : IfdefState) : Bool := f.parentActive && f.thisActive

def IfdefState.enter (parent : IfdefState) (condActive : Bool) : IfdefState :=
  ⟨parent.active, condActive, condActive⟩

def IfdefState.next (top : IfdefState) (condActive : Bool) : IfdefState :=
  if !top.hasMatched then { top with thisActive := condActive, hasMatched := condActive }
  else { top with thisActive := false }

section

variable (preprocessFile : π → Dict Text MacroDef → List π → Except Halt (State π))
variable (includeDirs : List π) (currentFile : π)

-- The loop over the lines. The head of the stack is its top.
def processLines : List Text → List IfdefState → State π → Except Halt (State π)
  | [], _, st => .ok st
  | line :: rest, stack, st =>
    let trimmed := trim line
    let active := (stack.head?.map IfdefState.active).getD true
    match stripDirective trimmed "ifdef" with
    | some cond =>
      let condActive := st.defines.containsKey (trim cond)
      processLines rest (⟨active, condActive, condActive⟩ :: stack) st
    | none =>
      match stripDirective trimmed "ifndef" with
      | some cond =>
        let condActive := !st.defines.containsKey (trim cond)
        processLines rest (⟨active, condActive, condActive⟩ :: stack) st
      | none =>
        match stripDirective trimmed "elsif" with
        | some cond =>
          match stack with
          | top :: below =>
            processLines rest (top.next (st.defines.containsKey (trim cond)) :: below) st
          | [] => processLines rest [] st
        | none =>
          if (stripDirective trimmed "else").isSome || trimmed = "`else".toList then
            match stack with
            | top :: below => processLines rest (top.next true :: below) st
            | [] => processLines rest [] st
          else if (stripDirective trimmed "endif").isSome || trimmed = "`endif".toList then
            processLines rest (if stack.length > 1 then stack.tail else stack) st
          else if !active then
            processLines rest stack st
          else do
            let st ← processLine fs order preprocessFile includeDirs currentFile st line
            processLines rest stack st

def preprocessSvSource (source : Text) (defines : Dict Text MacroDef) (visited : List π)
    : Except Halt (State π) :=
  processLines fs order preprocessFile includeDirs currentFile (lines source) [⟨true, true, true⟩]
    ⟨[], defines, visited⟩

end

-- `fuel` bounds the depth of the includes
def preprocessSvFile [DecidableEq π] (includeDirs : List π)
    : Nat → π → Dict Text MacroDef → List π → Except Halt (State π)
  | 0, _, _, _ => .error .outOfFuel
  | fuel + 1, filePath, defines, visited =>
    let canonical := (fs.canonicalize filePath).getD filePath
    if canonical ∈ visited then
      .ok ⟨"// `include cycle detected: ".toList ++ fs.display filePath ++ ['\n'], defines, visited⟩
    else
      let visited := visited ++ [canonical]
      match fs.readToString filePath with
      | none => .ok ⟨[], defines, visited.dropLast⟩
      | some source => do
        let st ← preprocessSvSource fs order (preprocessSvFile includeDirs fuel) includeDirs
          filePath source
          defines visited
        return { st with visited := st.visited.dropLast }

/-! ## Conditional compilation -/

def kind (line : Text) : Kind :=
  let trimmed := trim line
  if (stripDirective trimmed "ifdef").isSome then .opens
  else if (stripDirective trimmed "ifndef").isSome then .opens
  else if (stripDirective trimmed "elsif").isSome then .elsif
  else if (stripDirective trimmed "else").isSome || trimmed = "`else".toList then .otherwise
  else if (stripDirective trimmed "endif").isSome || trimmed = "`endif".toList then .endif
  else .plain

def holds (defines : Dict Text MacroDef) (line : Text) : Bool :=
  match stripDirective (trim line) "ifdef" with
  | some cond => defines.containsKey (trim cond)
  | none =>
    match stripDirective (trim line) "ifndef" with
    | some cond => !defines.containsKey (trim cond)
    | none => defines.containsKey (trim ((stripDirective (trim line) "elsif").getD []))

section

variable (preprocessFile : π → Dict Text MacroDef → List π → Except Halt (State π))
variable (includeDirs : List π) (currentFile : π)

def dialect : Dialect Text (Except Halt (State π)) where
  kind := kind
  holds
    | .ok st, line => holds st.defines line
    | .error _, _ => false
  keep st line :=
    st.bind fun st => processLine fs order preprocessFile includeDirs currentFile st line

def ifdefFrames : Frames IfdefState where
  active := IfdefState.active
  enter := IfdefState.enter
  elsif := fun _ top condActive => top.next condActive
  otherwise := fun _ top => top.next true

theorem ifdefFrames_remembers
    : Remembers ifdefFrames IfdefState.hasMatched (fun parent f => f.parentActive = parent.active)
        where
  active_enter _ _ := rfl
  matched_enter _ _ := rfl
  inside_enter _ _ := rfl
  active_elsif := by
    intro parent f c h
    cases hm : f.hasMatched <;> simp [ifdefFrames, IfdefState.next, IfdefState.active, hm, h]
  matched_elsif := by
    intro parent f c h
    cases hm : f.hasMatched <;> simp [ifdefFrames, IfdefState.next, hm]
  inside_elsif := by
    intro parent f c h
    cases hm : f.hasMatched <;> simp [ifdefFrames, IfdefState.next, hm, h]
  active_otherwise := by
    intro parent f h
    cases hm : f.hasMatched <;> simp [ifdefFrames, IfdefState.next, IfdefState.active, hm, h]

theorem processLines_eq (line : Text) (rest : List Text) (top : IfdefState)
    (below : List IfdefState) (st : State π)
    : processLines fs order preprocessFile includeDirs currentFile (line :: rest) (top :: below) st
        =
      let loop := processLines fs order preprocessFile includeDirs currentFile rest
      match kind line with
      | .plain =>
        if top.active then
          (processLine fs order preprocessFile includeDirs currentFile st line).bind
          (loop (top :: below))
        else
          loop (top :: below) st
      | .opens => loop (top.enter (holds st.defines line) :: top :: below) st
      | .elsif => loop (top.next (holds st.defines line) :: below) st
      | .otherwise => loop (top.next true :: below) st
      | .endif => loop (if below = [] then [top] else below) st := by
  simp only [processLines, kind, holds]
  cases hifdef : stripDirective (trim line) "ifdef" with
  | some cond => rfl
  | none =>
    cases hifndef : stripDirective (trim line) "ifndef" with
    | some cond => rfl
    | none =>
      cases helsif : stripDirective (trim line) "elsif" with
      | some cond => rfl
      | none =>
        simp only [Option.isSome_none, Bool.false_eq_true, if_false]
        split
        . rfl
        . split
          . cases below <;> rfl
          . cases hactive : top.active
            . simp [hactive]
            . simp [hactive]
              rfl

theorem processLines_isLoop
    : IsLoop (dialect fs order preprocessFile includeDirs currentFile) ifdefFrames (fun _ r => r)
        fun lines stack st =>
          st.bind (processLines fs order preprocessFile includeDirs currentFile lines stack) where
  plain := by
    intro line ls top below st h
    cases st with
    | error halt => cases htop : ifdefFrames.active top <;> rfl
    | ok st =>
      simp only [Except.bind, processLines_eq, show kind line = .plain from h]
      cases htop : top.active
      . simp [ifdefFrames, htop]
      . simp [ifdefFrames, dialect, htop]
        rfl
  opens := by
    intro line ls top below st h
    cases st with
    | error halt => rfl
    | ok st =>
      simp only [Except.bind, processLines_eq, show kind line = .opens from h]
      rfl
  elsif := by
    intro line ls top parent below st h
    cases st with
    | error halt => rfl
    | ok st =>
      simp only [Except.bind, processLines_eq, show kind line = .elsif from h]
      rfl
  otherwise := by
    intro line ls top parent below st h
    cases st with
    | error halt => rfl
    | ok st =>
      simp only [Except.bind, processLines_eq, show kind line = .otherwise from h]
      rfl
  endif := by
    intro line ls top parent below st h
    cases st with
    | error halt => rfl
    | ok st =>
      simp only [Except.bind, processLines_eq, show kind line = .endif from h]
      rfl

/--
The preprocessor writes what the lines of the selected branches give, in order, and leaves their
define table.
-/
theorem preprocessSvSource_eq_after {source : Text} (defines : Dict Text MacroDef)
    (visited : List π) {b : Block Text} (hlines : b.lines = lines source)
    (hspelled : b.Spelled (dialect fs order preprocessFile includeDirs currentFile))
    : preprocessSvSource fs order preprocessFile includeDirs currentFile source defines visited
        =
      b.after (dialect fs order preprocessFile includeDirs currentFile) true
        (.ok ⟨[], defines, visited⟩) := by
  have hloop :=
    (processLines_isLoop fs order preprocessFile includeDirs currentFile).block
      ⟨true, true, true⟩ [] [] b
    (.ok ⟨[], defines, visited⟩) hspelled
  rw [List.append_nil, hlines, List.foldr_const, Function.iterate_fixed rfl] at hloop
  rw [ifdefFrames_remembers.block_after] at hloop
  have hactive : ifdefFrames.active ⟨true, true, true⟩ = true := rfl
  rw [hactive] at hloop
  refine Eq.trans hloop ?_
  generalize Block.after _ _ b _ = st
  cases st <;> rfl

end

def FileSystem.empty : FileSystem Text :=
  ⟨fun _ => none, fun _ => none, fun _ => false, fun _ => none, (· ++ ·), id⟩

def defineInGroup : Block Text :=
  .group "`ifdef A".toList (.line "`define B 1".toList .nil)
    (.elsif "`elsif C".toList (.line "x".toList .nil)
      (.otherwise "`else".toList (.line "`define C".toList .nil) "`endif".toList))
    (.group "`ifndef B".toList (.line "x".toList .nil) (.endif "`endif".toList)
      (.line "y `B".toList .nil))

theorem preprocessSvSource_eq_after_defineInGroup
    : (preprocessSvSource FileSystem.empty Dict.keys (fun _ _ _ => .error .outOfFuel) []
        "top.sv".toList
        ("`ifdef A\n`define B 1\n`elsif C\nx\n`else\n`define C\n`endif\n".toList
          ++ "`ifndef B\nx\n`endif\ny `B\n".toList)
        (Dict.empty.insert "A".toList (.object [])) []).map State.result
      = .ok "// `define B 1\ny 1\n".toList := by
  rw [preprocessSvSource_eq_after (b := defineInGroup)]
  . decide
  . decide
  . decide

def IsName (name : Text) : Prop := name ≠ [] ∧ ∀ c ∈ name, isWhitespace c = false

def Written (directive : String) (name line : Text) : Prop :=
  ∃ lead gap trail : Text,
    (∀ c ∈ lead, isWhitespace c) ∧ (∀ c ∈ gap, isWhitespace c) ∧ gap ≠ []
    ∧ (∀ c ∈ trail, isWhitespace c)
      ∧ line = lead ++ '`' :: (directive.toList ++ (gap ++ name)) ++ trail

section

variable {directive : String} {name line : Text}

theorem IsName.trim_gap_append (hname : IsName name) {gap : Text} (hgap : ∀ c ∈ gap, isWhitespace c)
    : trim (gap ++ name) = name := by
  rw [trim_append_left _ hgap]
  apply trim_eq_self
  . intro c hc
    exact hname.2 c (List.mem_of_head? hc)
  . intro c hc
    exact hname.2 c (List.mem_of_getLast? hc)

theorem Written.trim_eq (h : Written directive name line) (hname : IsName name)
    : ∃ c gap, isWhitespace c ∧ trim (c :: (gap ++ name)) = name
        ∧ trim line = '`' :: (directive.toList ++ c :: (gap ++ name)) := by
  have ⟨lead, gap, trail, hlead, hgap, hgap', htrail, hline⟩ := h
  cases gap with
  | nil => exact absurd rfl hgap'
  | cons c cs =>
    refine ⟨c, cs, hgap c List.mem_cons_self, hname.trim_gap_append hgap, ?_⟩
    rw [hline, trim_append_right _ htrail, trim_append_left _ hlead, trim_eq_self]
    . rw [List.cons_append]
    . simp [isWhitespace]
    . intro c' hc'
      rw [← List.append_assoc, ← List.cons_append, List.getLast?_append_of_ne_nil _ hname.1] at hc'
      exact hname.2 c' (List.mem_of_getLast? hc')

/-! A directive line that is written with one name is read as this directive on this name. -/

theorem Written.ifdef (h : Written "ifdef" name line) (hname : IsName name)
    (defines : Dict Text MacroDef)
    : kind line = .opens ∧ holds defines line = defines.containsKey name := by
  have ⟨c, gap, hc, hcond, htrim⟩ := h.trim_eq hname
  have hifdef : stripDirective (trim line) "ifdef" = some (c :: (gap ++ name)) := by
    simp [htrim, stripDirective, stripPrefix?, hc]
  simp [kind, holds, hifdef, hcond]

theorem Written.ifndef (h : Written "ifndef" name line) (hname : IsName name)
    (defines : Dict Text MacroDef)
    : kind line = .opens ∧ holds defines line = !defines.containsKey name := by
  have ⟨c, gap, hc, hcond, htrim⟩ := h.trim_eq hname
  have hifdef : stripDirective (trim line) "ifdef" = none := by
    simp [htrim, stripDirective, stripPrefix?]
  have hifndef : stripDirective (trim line) "ifndef" = some (c :: (gap ++ name)) := by
    simp [htrim, stripDirective, stripPrefix?, hc]
  simp [kind, holds, hifdef, hifndef, hcond]

theorem Written.elsif (h : Written "elsif" name line) (hname : IsName name)
    (defines : Dict Text MacroDef)
    : kind line = .elsif ∧ holds defines line = defines.containsKey name := by
  have ⟨c, gap, hc, hcond, htrim⟩ := h.trim_eq hname
  have hifdef : stripDirective (trim line) "ifdef" = none := by
    simp [htrim, stripDirective, stripPrefix?]
  have hifndef : stripDirective (trim line) "ifndef" = none := by
    simp [htrim, stripDirective, stripPrefix?]
  have helsif : stripDirective (trim line) "elsif" = some (c :: (gap ++ name)) := by
    simp [htrim, stripDirective, stripPrefix?, hc]
  simp [kind, holds, hifdef, hifndef, helsif, hcond]

end

end SvPreprocessor
end HdlGraph
