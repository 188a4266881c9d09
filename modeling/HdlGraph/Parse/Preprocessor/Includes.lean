import HdlGraph.Parse.Preprocessor.SvPreprocessor

/-!
This module contains how the standalone preprocessor expands include files: what happens during a
run, that a run comes to an end in a file system with finitely many files, and that no file is
expanded within itself.
-/

namespace HdlGraph
namespace SvPreprocessor

open Text Conditional

variable {π : Type} (fs : FileSystem π) (order : Dict Text Text → List Text)

/-! ## What happens during a run -/

inductive Event (π : Type) where
  -- `preprocess_sv_source` starts on the file, while it runs on those in `expanding`
  | expands (file : π) (expanding : List π)
  | line (defines : Dict Text MacroDef) (line : Text)

def includedFile (includeDirs : List π) (currentFile : π) (line : Text) : Option π :=
  let trimmed := trim line
  if (stripDirective trimmed "define").isSome || (stripDirective trimmed "undef").isSome then
    none
  else
    (stripDirective trimmed "include").bind fun rest =>
      resolveInclude fs
        (trim (trimEndChar '>'
        (trimStartChar '<' (trimEndChar '"' (trimStartChar '"' (trim rest))))))
        currentFile includeDirs

def stackBehind (top : IfdefState) (below : List IfdefState)
    (defines : Dict Text MacroDef) (line : Text)
    : Option (IfdefState × List IfdefState) :=
  match kind line with
  | .plain => if top.active then none else some (top, below)
  | .opens => some (top.enter (holds defines line), top :: below)
  | .elsif => some (top.next (holds defines line), below)
  | .otherwise => some (top.next true, below)
  | .endif =>
    match below with
    | [] => some (top, [])
    | top' :: below' => some (top', below')

section

variable (preprocessFile : π → Dict Text MacroDef → List π → Except Halt (State π))
variable (fileEvents : π → Dict Text MacroDef → List π → List (Event π))
variable (includeDirs : List π) (currentFile : π)

def lineEvents (st : State π) (line : Text) : List (Event π) :=
  .line st.defines line ::
    match includedFile fs includeDirs currentFile line with
    | some path => fileEvents path st.defines st.visited
    | none => []

def linesEvents : List Text → IfdefState → List IfdefState → State π → List (Event π)
  | [], _, _, _ => []
  | line :: rest, top, below, st =>
    match stackBehind top below st.defines line with
    | some (top', below') => linesEvents rest top' below' st
    | none =>
      lineEvents fs fileEvents includeDirs currentFile st line
        ++ match processLine fs order preprocessFile includeDirs currentFile st line with
          | .ok st' => linesEvents rest top below st'
          | .error _ => []

end

def fileEvents [DecidableEq π] (includeDirs : List π)
    : Nat → List π → π → Dict Text MacroDef → List π → List (Event π)
  | 0, _, _, _, _ => []
  | fuel + 1, expanding, filePath, defines, visited =>
    let canonical := (fs.canonicalize filePath).getD filePath
    if canonical ∈ visited then
      []
    else
      match fs.readToString filePath with
      | none => []
      | some source =>
        .expands canonical expanding ::
          linesEvents fs order (preprocessSvFile fs order includeDirs fuel)
            (fileEvents includeDirs fuel (expanding ++ [canonical])) includeDirs filePath
            (lines source)
            ⟨true, true, true⟩ [] ⟨[], defines, visited ++ [canonical]⟩

/-! ## One line -/

section

variable {fs order}
variable {preprocessFile preprocessFile' : π → Dict Text MacroDef → List π → Except Halt (State π)}
variable {includeDirs : List π} {currentFile : π} {st st' : State π} {line : Text}

theorem processLines_cons (top : IfdefState) (below : List IfdefState) (rest : List Text)
    : processLines fs order preprocessFile includeDirs currentFile (line :: rest) (top :: below) st
        =
      match stackBehind top below st.defines line with
      | some (top', below') =>
        processLines fs order preprocessFile includeDirs currentFile rest (top' :: below') st
      | none =>
        (processLine fs order preprocessFile includeDirs currentFile st line).bind
          (processLines fs order preprocessFile includeDirs currentFile rest (top :: below)) := by
  rw [processLines_eq]
  unfold stackBehind
  cases kind line with
  | plain => cases top.active <;> rfl
  | opens => rfl
  | elsif => rfl
  | otherwise => rfl
  | endif => cases below <;> rfl

theorem includedFile_eq_some {path : π}
    (h : includedFile fs includeDirs currentFile line = some path)
    : stripDirective (trim line) "define" = none ∧ stripDirective (trim line) "undef" = none
        ∧ ∃ rest, stripDirective (trim line) "include" = some rest
          ∧ resolveInclude fs
              (trim (trimEndChar '>'
                (trimStartChar '<' (trimEndChar '"' (trimStartChar '"' (trim rest))))))
              currentFile includeDirs
            = some path := by
  unfold includedFile at h
  dsimp only at h
  split at h
  . contradiction
  . next hnot =>
    simp only [Bool.or_eq_true, not_or, Bool.not_eq_true, Option.isSome_eq_false_iff,
      Option.isNone_iff_eq_none] at hnot
    exact ⟨hnot.1, hnot.2, Option.bind_eq_some_iff.mp h⟩

theorem processLine_of_included {path : π}
    (h : includedFile fs includeDirs currentFile line = some path)
    : processLine fs order preprocessFile includeDirs currentFile st line
        =
      (preprocessFile path st.defines st.visited).bind fun inlined =>
        .ok { inlined with result := st.result ++ inlined.result } := by
  obtain ⟨hdefine, hundef, rest, hrest, hpath⟩ := includedFile_eq_some h
  simp only [processLine, hdefine, hundef, hrest, hpath]
  rfl

theorem parseDefine_ne_outOfFuel (afterName : Text)
    : parseDefine afterName ≠ .error .outOfFuel := by
  unfold parseDefine
  split
  . split
    . split <;> simp
    . simp
  . simp

theorem expandInvocation_ne_outOfFuel (macroDef : MacroDef) (afterName : Text)
    : expandInvocation order macroDef afterName ≠ .error .outOfFuel := by
  unfold expandInvocation
  split
  . dsimp only
    split
    . simp
    . split <;> simp
  . simp

theorem map_ne_outOfFuel {α β : Type} {x : Except Halt α} (h : x ≠ .error .outOfFuel) (f : α → β)
    : x.map f ≠ .error .outOfFuel := by
  cases x with
  | ok a => simp [Except.map]
  | error halt => simpa [Except.map] using h

theorem bind_ne_outOfFuel {α β : Type} {x : Except Halt α} {f : α → Except Halt β}
    (h : x ≠ .error .outOfFuel) (hf : ∀ a, f a ≠ .error .outOfFuel)
    : (x >>= f) ≠ .error .outOfFuel := by
  cases x with
  | ok a => exact hf a
  | error halt =>
    intro heq
    cases heq
    exact h rfl

variable (order) in
theorem expandInlineMacros_ne_outOfFuel (line : Text) (defines : Dict Text MacroDef)
    : expandInlineMacros order line defines ≠ .error .outOfFuel := by
  unfold expandInlineMacros
  generalize 0 = skip
  induction line generalizing skip with
  | nil => cases skip <;> simp [expandInlineMacros.go]
  | cons c cs ih =>
    cases skip with
    | succ skip => exact ih skip
    | zero =>
      rw [expandInlineMacros.go]
      dsimp only
      split
      . split
        . exact map_ne_outOfFuel (ih 0) _
        . split
          . refine bind_ne_outOfFuel (expandInvocation_ne_outOfFuel _ _) ?_
            intro expansion
            exact bind_ne_outOfFuel (ih _) nofun
          . exact map_ne_outOfFuel (ih 0) _
      . exact map_ne_outOfFuel (ih 0) _

variable (preprocessFile') in
theorem processLine_of_not_included (h : includedFile fs includeDirs currentFile line = none)
    : processLine fs order preprocessFile includeDirs currentFile st line
          = processLine fs order preprocessFile' includeDirs currentFile st line
        ∧ processLine fs order preprocessFile includeDirs currentFile st line ≠ .error .outOfFuel
        ∧ ∀ st', processLine fs order preprocessFile includeDirs currentFile st line = .ok st' →
          st'.visited = st.visited := by
  unfold processLine
  dsimp only
  split
  . split
    . exact ⟨rfl, by simp, fun st' heq => by cases heq; rfl⟩
    . next rest _ _ =>
      have hdefine := parseDefine_ne_outOfFuel
        (trimStart ((trim rest).dropWhile fun c => !(isWhitespace c || decide (c = '('))))
      generalize parseDefine _ = macroDef at hdefine
      refine ⟨rfl, bind_ne_outOfFuel hdefine nofun, ?_⟩
      cases macroDef with
      | error halt => exact nofun
      | ok macroDef => exact fun st' heq => by cases heq; rfl
  . next hdefine =>
    split
    . exact ⟨rfl, by simp, fun st' heq => by cases heq; rfl⟩
    . next hundef =>
      split
      . next rest hinclude =>
        have hnone : resolveInclude fs (trim (trimEndChar '>' (trimStartChar '<'
              (trimEndChar '"' (trimStartChar '"' (trim rest)))))) currentFile includeDirs
            = none := by
          simpa [includedFile, hdefine, hundef, hinclude] using h
        simp only [hnone]
        exact ⟨trivial, by simp, fun st' heq => by cases heq; rfl⟩
      . split
        . exact ⟨rfl, by simp, fun st' heq => by cases heq; rfl⟩
        . have hexpand := expandInlineMacros_ne_outOfFuel order line st.defines
          generalize expandInlineMacros order line st.defines = expanded at hexpand
          refine ⟨rfl, bind_ne_outOfFuel hexpand nofun, ?_⟩
          cases expanded with
          | error halt => exact nofun
          | ok expanded => exact fun st' heq => by cases heq; rfl

end

/-! ## The visited files -/

def Restores (preprocessFile : π → Dict Text MacroDef → List π → Except Halt (State π)) : Prop :=
  ∀ path defines visited st, preprocessFile path defines visited = .ok st → st.visited = visited

section

variable {fs order}
variable {preprocessFile preprocessFile' : π → Dict Text MacroDef → List π → Except Halt (State π)}
variable {includeDirs : List π} {currentFile : π}

theorem Restores.processLine (h : Restores preprocessFile) {st st' : State π} {line : Text}
    (hline : processLine fs order preprocessFile includeDirs currentFile st line = .ok st')
    : st'.visited = st.visited := by
  cases hincluded : includedFile fs includeDirs currentFile line with
  | none =>
    exact (processLine_of_not_included preprocessFile hincluded).2.2 st' hline
  | some path =>
    rw [processLine_of_included hincluded] at hline
    cases hfile : preprocessFile path st.defines st.visited with
    | error halt =>
      rw [hfile] at hline
      cases hline
    | ok inlined =>
      rw [hfile] at hline
      cases hline
      exact h path st.defines st.visited inlined hfile

theorem Restores.processLines (h : Restores preprocessFile) {lines : List Text} {top : IfdefState}
    {below : List IfdefState} {st st' : State π}
    (hlines : processLines fs order preprocessFile includeDirs currentFile lines (top :: below) st
      = .ok st')
    : st'.visited = st.visited := by
  induction lines generalizing top below st with
  | nil =>
    cases hlines
    rfl
  | cons line rest ih =>
    rw [processLines_cons] at hlines
    split at hlines
    . exact ih hlines
    . cases hline : SvPreprocessor.processLine fs order preprocessFile includeDirs
        currentFile st line with
      | error halt =>
        rw [hline] at hlines
        cases hlines
      | ok st'' =>
        rw [hline] at hlines
        exact (ih hlines).trans (h.processLine hline)

/-! ## More fuel -/

def Within {α : Type} (x y : Except Halt α) : Prop := x = .error .outOfFuel ∨ x = y

theorem Within.bind {α β : Type} {x y : Except Halt α} {f g : α → Except Halt β} (h : Within x y)
    (hfg : ∀ a, Within (f a) (g a))
    : Within (x.bind f) (y.bind g) := by
  cases h with
  | inl h =>
    left
    rw [h]
    rfl
  | inr h =>
    rw [h]
    cases y with
    | error halt => exact Or.inr rfl
    | ok a => exact hfg a

theorem processLine_within (h : ∀ path defines visited, Within (preprocessFile path defines visited)
      (preprocessFile' path defines visited)) (st : State π) (line : Text)
    : Within (processLine fs order preprocessFile includeDirs currentFile st line)
        (processLine fs order preprocessFile' includeDirs currentFile st line) := by
  cases hincluded : includedFile fs includeDirs currentFile line with
  | none => exact Or.inr (processLine_of_not_included preprocessFile' hincluded).1
  | some path =>
    rw [processLine_of_included hincluded, processLine_of_included hincluded]
    exact (h path st.defines st.visited).bind fun _ => Or.inr rfl

theorem processLines_within
    (h : ∀ path defines visited, Within (preprocessFile path defines visited)
      (preprocessFile' path defines visited)) (lines : List Text) (top : IfdefState)
      (below : List IfdefState)
    (st : State π)
    : Within (processLines fs order preprocessFile includeDirs currentFile lines (top :: below) st)
        (processLines fs order preprocessFile' includeDirs currentFile lines
          (top :: below) st) := by
  induction lines generalizing top below st with
  | nil => exact Or.inr rfl
  | cons line rest ih =>
    rw [processLines_cons, processLines_cons]
    split
    . apply ih
    . exact (processLine_within h st line).bind (ih top below)

theorem processLines_ne_outOfFuel (hrestores : Restores preprocessFile) {lines : List Text}
    {top : IfdefState} {below : List IfdefState} {st : State π}
    (h : ∀ path defines, preprocessFile path defines st.visited ≠ .error .outOfFuel)
    : processLines fs order preprocessFile includeDirs currentFile lines (top :: below) st
        ≠ .error .outOfFuel := by
  induction lines generalizing top below st with
  | nil => simp [processLines]
  | cons line rest ih =>
    rw [processLines_cons]
    split
    . exact ih h
    . have hline : SvPreprocessor.processLine fs order preprocessFile includeDirs
            currentFile st line
          ≠ .error .outOfFuel := by
        cases hincluded : includedFile fs includeDirs currentFile line with
        | none => exact (processLine_of_not_included preprocessFile hincluded).2.1
        | some path =>
          rw [processLine_of_included hincluded]
          have hfile := h path st.defines
          cases hresult : preprocessFile path st.defines st.visited with
          | error halt =>
            rw [hresult] at hfile
            exact hfile
          | ok inlined => simp [Except.bind]
      cases hresult : SvPreprocessor.processLine fs order preprocessFile includeDirs
        currentFile st line with
      | error halt =>
        rw [hresult] at hline
        exact hline
      | ok st' =>
        exact ih (hrestores.processLine hresult ▸ h)

end

/-! ## Files -/

section

variable [DecidableEq π] {fs order} {includeDirs : List π}

theorem preprocessSvFile_restores (fuel : Nat)
    : Restores (preprocessSvFile fs order includeDirs fuel) := by
  induction fuel with
  | zero => exact fun _ _ _ _ h => nomatch h
  | succ fuel ih =>
    intro path defines visited st h
    rw [preprocessSvFile] at h
    dsimp only at h
    split at h
    . cases h
      rfl
    . split at h
      . cases h
        simp
      . next source _ =>
        unfold preprocessSvSource at h
        cases hlines : processLines fs order (preprocessSvFile fs order includeDirs fuel)
          includeDirs path (lines source)
            [⟨true, true, true⟩] ⟨[], defines, visited ++ [(fs.canonicalize path).getD path]⟩ with
        | error halt =>
          rw [hlines] at h
          cases h
        | ok st' =>
          rw [hlines] at h
          cases h
          have := ih.processLines hlines
          simp [this]

variable (fs order includeDirs) in
theorem preprocessSvFile_within (fuel : Nat) (path : π) (defines : Dict Text MacroDef)
    (visited : List π)
    : Within (preprocessSvFile fs order includeDirs fuel path defines visited)
        (preprocessSvFile fs order includeDirs (fuel + 1) path defines visited) := by
  induction fuel generalizing path defines visited with
  | zero => exact Or.inl rfl
  | succ fuel ih =>
    rw [preprocessSvFile, preprocessSvFile]
    dsimp only
    split
    . exact Or.inr rfl
    . split
      . exact Or.inr rfl
      . exact (processLines_within ih _ _ _ _).bind fun _ => Or.inr rfl

theorem preprocessSvFile_eq_of_le {fuel fuel' : Nat} {path : π} {defines : Dict Text MacroDef}
    {visited : List π}
    (h : preprocessSvFile fs order includeDirs fuel path defines visited ≠ .error .outOfFuel)
    (hle : fuel ≤ fuel')
    : preprocessSvFile fs order includeDirs fuel' path defines visited
        = preprocessSvFile fs order includeDirs fuel path defines visited := by
  induction hle with
  | refl => rfl
  | @step m _ ih =>
    have hwithin := preprocessSvFile_within fs order includeDirs m path defines visited
    rw [ih] at hwithin
    exact (hwithin.resolve_left h).symm

theorem preprocessSvFile_ne_outOfFuel {files : List π}
    (hfiles : ∀ path, fs.readToString path ≠ none →
      ∃ file ∈ files, fs.canonicalize path = some file)
    {fuel : Nat} {path : π} {defines : Dict Text MacroDef} {visited : List π}
    (hfuel : (files.filter fun file => file ∉ visited).length < fuel)
    : preprocessSvFile fs order includeDirs fuel path defines visited ≠ .error .outOfFuel := by
  induction fuel generalizing path defines visited with
  | zero => omega
  | succ fuel ih =>
    rw [preprocessSvFile]
    dsimp only
    split
    . simp
    . next hnew =>
      split
      . simp
      . next source hsource =>
        obtain ⟨file, hfile, hcanonical⟩ := hfiles path (by simp [hsource])
        rw [hcanonical, Option.getD_some] at hnew ⊢
        refine bind_ne_outOfFuel ?_ nofun
        apply processLines_ne_outOfFuel (preprocessSvFile_restores fuel)
        intro path' defines'
        apply ih
        show (files.filter fun other => other ∉ visited ++ [file]).length < fuel
        have hlt : (files.filter fun other => other ∉ visited ++ [file]).length
            < (files.filter fun other => other ∉ visited).length := by
          have hsplit : (files.filter fun other => other ∉ visited ++ [file])
              = (files.filter fun other => other ∉ visited).filter fun other => other ≠ file := by
            rw [List.filter_filter]
            apply List.filter_congr
            intro other _
            grind
          rw [hsplit]
          apply List.length_filter_lt_length_iff_exists.mpr
          exact ⟨file, List.mem_filter.mpr ⟨hfile, by simpa using hnew⟩, by simp⟩
        omega

/-! ## Nothing is expanded within itself -/

omit [DecidableEq π] in
theorem expands_mem_linesEvents
    {preprocessFile : π → Dict Text MacroDef → List π → Except Halt (State π)}
    {events : π → Dict Text MacroDef → List π → List (Event π)} {currentFile : π}
    (h : Restores preprocessFile) {lines : List Text} {top : IfdefState} {below : List IfdefState}
    {st : State π} {file : π} {expanding : List π}
    (hmem : .expands file expanding
      ∈ linesEvents fs order preprocessFile events includeDirs currentFile lines top below st)
    : ∃ path defines, .expands file expanding ∈ events path defines st.visited := by
  induction lines generalizing top below st with
  | nil => simp [linesEvents] at hmem
  | cons line rest ih =>
    rw [linesEvents] at hmem
    split at hmem
    . exact ih hmem
    . rw [List.mem_append] at hmem
      cases hmem with
      | inl hmem =>
        rw [lineEvents, List.mem_cons] at hmem
        have hmem := hmem.resolve_left nofun
        split at hmem
        . next path _ => exact ⟨path, st.defines, hmem⟩
        . simp at hmem
      | inr hmem =>
        split at hmem
        . next st' hline =>
          rw [← h.processLine hline]
          exact ih hmem
        . simp at hmem

theorem notMem_expanding {fuel : Nat} {expanding : List π} {path : π} {defines : Dict Text MacroDef}
    {visited : List π} (hvisited : ∀ file ∈ expanding, file ∈ visited) {file : π}
    {expanding' : List π}
    (hmem : .expands file expanding'
      ∈ fileEvents fs order includeDirs fuel expanding path defines visited)
    : file ∉ expanding' := by
  induction fuel generalizing expanding path defines visited with
  | zero => simp [fileEvents] at hmem
  | succ fuel ih =>
    rw [fileEvents] at hmem
    split at hmem
    . simp at hmem
    . next hnew =>
      split at hmem
      . simp at hmem
      . cases List.mem_cons.mp hmem with
        | inl heq =>
          cases heq
          exact fun hfile => hnew (hvisited _ hfile)
        | inr hmem =>
          obtain ⟨path', defines', hmem⟩ :=
            expands_mem_linesEvents (preprocessSvFile_restores fuel) hmem
          refine ih ?_ hmem
          intro other hother
          rw [List.mem_append] at *
          exact hother.imp_left (hvisited other)

end

/--
In a file system in which the files that can be read have finitely many canonical paths, the
expansion of a file ends, it leaves the visited files as they were, and no file is expanded while it
is being expanded.
-/
theorem preprocessSvFile_terminates [DecidableEq π] (includeDirs : List π) (files : List π)
    (hfiles : ∀ path, fs.readToString path ≠ none →
      ∃ file ∈ files, fs.canonicalize path = some file)
    (filePath : π) (defines : Dict Text MacroDef) (visited : List π)
    : ∃ bound result, result ≠ .error .outOfFuel
        ∧ (∀ fuel, bound ≤ fuel →
            preprocessSvFile fs order includeDirs fuel filePath defines visited = result)
        ∧ (∀ st, result = .ok st → st.visited = visited)
        ∧ ∀ fuel file expanding,
          .expands file expanding
            ∈ fileEvents fs order includeDirs fuel [] filePath defines visited →
          file ∉ expanding := by
  have hends : preprocessSvFile fs order includeDirs
      ((files.filter fun file => file ∉ visited).length + 1) filePath
      defines visited ≠ .error .outOfFuel :=
    preprocessSvFile_ne_outOfFuel hfiles (Nat.lt_succ_self _)
  refine ⟨_, _, hends, fun fuel hfuel => preprocessSvFile_eq_of_le hends hfuel, ?_, ?_⟩
  . intro st hst
    exact preprocessSvFile_restores _ filePath defines visited st hst
  . intro fuel file expanding hmem
    exact notMem_expanding (by simp) hmem

-- Two files that include each other; one of them also includes itself through another spelling
def FileSystem.mutual : FileSystem Text where
  canonicalize path :=
    if path = "./a.sv".toList then some "a.sv".toList
    else if path = "a.sv".toList ∨ path = "b.sv".toList then some path
    else none
  readToString path :=
    if path = "a.sv".toList ∨ path = "./a.sv".toList then
      some "`include \"./a.sv\"\n`include \"b.sv\"".toList
    else if path = "b.sv".toList then some "`include \"a.sv\"".toList
    else none
  isPresent _ := true
  parent _ := some []
  join parent path := parent ++ path
  display path := path

theorem preprocessSvFile_terminates_mutual
    : ∃ bound result, result ≠ .error .outOfFuel
        ∧ (∀ fuel, bound ≤ fuel →
          preprocessSvFile FileSystem.mutual Dict.keys [] fuel "a.sv".toList Dict.empty [] = result)
        ∧ (∀ st, result = .ok st → st.visited = [])
        ∧ ∀ fuel file expanding,
          .expands file expanding ∈ fileEvents FileSystem.mutual Dict.keys [] fuel [] "a.sv".toList
            Dict.empty [] →
          file ∉ expanding := by
  apply preprocessSvFile_terminates FileSystem.mutual Dict.keys [] ["a.sv".toList, "b.sv".toList]
  intro path hpath
  unfold FileSystem.mutual at hpath
  dsimp only at hpath
  split at hpath
  . next h => rcases h with rfl | rfl <;> exact ⟨"a.sv".toList, by decide, by decide⟩
  . split at hpath
    . next h =>
      subst h
      exact ⟨"b.sv".toList, by decide, by decide⟩
    . exact absurd rfl hpath

example
    : (preprocessSvFile FileSystem.mutual Dict.keys [] 3 "a.sv".toList Dict.empty []).map
        State.result
      = .ok "// `include cycle detected: ./a.sv\n// `include cycle detected: a.sv\n".toList := by
  decide

end SvPreprocessor
end HdlGraph
