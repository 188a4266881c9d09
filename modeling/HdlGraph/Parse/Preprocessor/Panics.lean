import HdlGraph.Parse.Preprocessor.Includes

/-!
This module contains the lines on which the standalone preprocessor panics: a `define` line whose
parameter list is not cut where it ends, and a line whose last character opens the arguments of a
macro. A run panics exactly if it comes to such a line.
-/

namespace HdlGraph
namespace SvPreprocessor

open Text

variable {π : Type} {order : Dict Text Text → List Text} {defines : Dict Text MacroDef}

/-! ## `define` lines -/

def definedName (rest : Text) : Text :=
  trim ((trim rest).takeWhile fun c => !(isWhitespace c || c = '('))

def behindDefinedName (rest : Text) : Text :=
  trimStart ((trim rest).dropWhile fun c => !(isWhitespace c || c = '('))

-- The number of characters before the closing parenthesis is taken for a number of bytes, and the
-- text is not to be cut there or behind the next byte
def CutsParams (afterName : Text) : Prop :=
  ∃ paramsAndBody parenClose, afterName = '(' :: paramsAndBody
    ∧ findMatchingParen paramsAndBody = some parenClose
    ∧ ¬(IsCharBoundary paramsAndBody parenClose ∧ IsCharBoundary paramsAndBody (parenClose + 1))

theorem parseDefine_eq_panic_iff {afterName : Text} : parseDefine afterName = .error .panic
    ↔ CutsParams afterName := by
  unfold parseDefine CutsParams
  split
  . next paramsAndBody =>
    cases hclose : findMatchingParen paramsAndBody with
    | none => simp [hclose]
    | some parenClose =>
      have hparams := splitAtByte?_isSome_iff (n := parenClose) (s := paramsAndBody)
      have hbody := splitAtByte?_isSome_iff (n := parenClose + 1) (s := paramsAndBody)
      cases hp : splitAtByte? parenClose paramsAndBody <;> cases hb : splitAtByte? (parenClose + 1)
        paramsAndBody <;>
        simp_all
  . next hopen =>
    simp only [reduceCtorEq, false_iff, not_exists, not_and]
    exact fun paramsAndBody _ heq => absurd heq (hopen paramsAndBody)

theorem findMatchingParen_lt {s : Text} {parenClose : Nat}
    (h : findMatchingParen s = some parenClose)
    : parenClose < s.length := by
  unfold findMatchingParen at h
  generalize 0 = depth at h
  induction s generalizing depth parenClose with
  | nil => contradiction
  | cons c cs ih =>
    rw [findMatchingParen.go] at h
    split at h
    . obtain ⟨k, hk, rfl⟩ := Option.map_eq_some_iff.mp h
      exact Nat.succ_lt_succ (ih _ hk)
    . split at h
      . split at h
        . cases h
          exact Nat.zero_lt_succ _
        . obtain ⟨k, hk, rfl⟩ := Option.map_eq_some_iff.mp h
          exact Nat.succ_lt_succ (ih _ hk)
      . obtain ⟨k, hk, rfl⟩ := Option.map_eq_some_iff.mp h
        exact Nat.succ_lt_succ (ih _ hk)

theorem not_cutsParams_of_ascii {afterName : Text} (h : ∀ c ∈ afterName, c.utf8Size = 1)
    : ¬CutsParams afterName := by
  rintro ⟨paramsAndBody, parenClose, rfl, hclose, hcut⟩
  have hascii := fun c hc => h c (List.mem_cons_of_mem '(' hc)
  have hlt := findMatchingParen_lt hclose
  exact hcut ⟨isCharBoundary_of_le hascii (Nat.le_of_lt hlt), isCharBoundary_of_le hascii hlt⟩

/-! The other cuts of a `define` line: at the end of its name, and at the `=` of a default. -/

theorem isCharBoundary_definedName (rest : Text)
    : IsCharBoundary (trim rest)
        (byteLen ((trim rest).takeWhile fun c => !(isWhitespace c || c = '('))) :=
  isCharBoundary_takeWhile _ (trim rest)

theorem isCharBoundary_default {part front : Text} (h : before? "=".toList part = some front)
    : IsCharBoundary part (byteLen front) ∧ IsCharBoundary part (byteLen front + 1) := by
  obtain ⟨back, rfl⟩ := before?_eq_some h
  constructor
  . exact isCharBoundary_append front _
  . have hbehind := isCharBoundary_append (front ++ "=".toList) back
    rw [byteLen_append, List.append_assoc] at hbehind
    exact hbehind

/-! ## Invocations of macros -/

def invocation? (defines : Dict Text MacroDef) : Text → Option Text
  | '`' :: cs =>
    let macroName := cs.takeWhile isWordChar
    if cs.head?.any Char.isAlpha && !isDirective macroName && defines.containsKey macroName then
      some (cs.dropWhile isWordChar)
    else
      none
  | _ => none

def behindArguments : Text → Text
  | '(' :: args =>
    match findMatchingParen args with
    | some parenClose => args.drop (parenClose + 1)
    | none => []
  | afterName => afterName

-- The text behind the invocation at the start of the text, or else behind its first character
def behind (defines : Dict Text MacroDef) (s : Text) : Text :=
  match invocation? defines s with
  | some afterName => behindArguments afterName
  | none => s.tail

inductive Scans (defines : Dict Text MacroDef) : Text → Text → Prop where
  | here (s : Text) : Scans defines s s
  | onward {s t : Text} (hs : s ≠ []) (h : Scans defines (behind defines s) t) : Scans defines s t

-- The line ends with the opening parenthesis of a macro, and this macro is not in the arguments of
-- another one
def CutsArguments (defines : Dict Text MacroDef) (line : Text) : Prop :=
  ∃ s, Scans defines line s ∧ invocation? defines s = some ['(']

theorem invocation?_eq_some {s afterName : Text} (h : invocation? defines s = some afterName)
    : afterName <:+ s := by
  unfold invocation? at h
  split at h
  . dsimp only at h
    split at h
    . cases h
      exact (List.dropWhile_suffix _).trans (List.suffix_cons _ _)
    . contradiction
  . contradiction

theorem behindArguments_suffix (s : Text) : behindArguments s <:+ s := by
  unfold behindArguments
  split
  . split
    . exact (List.drop_suffix _ _).trans (List.suffix_cons _ _)
    . exact List.nil_suffix
  . exact List.suffix_rfl

theorem behind_suffix (s : Text) : behind defines s <:+ s := by
  unfold behind
  split
  . next afterName hinvocation =>
      exact (behindArguments_suffix afterName).trans (invocation?_eq_some hinvocation)
  . exact List.tail_suffix s

theorem Scans.suffix {s t : Text} (h : Scans defines s t) : t <:+ s := by
  induction h with
  | here s => exact List.suffix_rfl
  | onward _ _ ih => exact ih.trans (behind_suffix _)

theorem CutsArguments.getLast? {line : Text} (h : CutsArguments defines line)
    : line.getLast? = some '(' := by
  obtain ⟨s, hscans, hs⟩ := h
  obtain ⟨front, rfl⟩ := (invocation?_eq_some hs).trans hscans.suffix
  simp

theorem argsEnd_eq (depth : Nat) (s : Text)
    : argsEnd (depth + 1) s = ((findMatchingParen.go depth s).map (· + 1)).getD s.length := by
  induction s generalizing depth with
  | nil => rfl
  | cons c cs ih =>
    simp only [argsEnd, findMatchingParen.go]
    split
    . rw [ih]
      cases findMatchingParen.go (depth + 1) cs <;> simp
    . split
      . cases depth with
        | zero => simp
        | succ depth =>
          simp only [Nat.add_eq_right, Nat.add_one_ne_zero, if_false, Nat.add_one_sub_one]
          rw [ih]
          cases findMatchingParen.go depth cs <;> simp
      . rw [ih]
        cases findMatchingParen.go depth cs <;> simp

theorem expandInvocation_eq_panic (macroDef : MacroDef)
    : expandInvocation order macroDef ['('] = .error .panic := rfl

variable (order) in
theorem expandInvocation_eq_ok (macroDef : MacroDef) {afterName : Text} (h : afterName ≠ ['('])
    : ∃ expanded taken, expandInvocation order macroDef afterName = .ok (expanded, taken)
        ∧ afterName.drop taken = behindArguments afterName := by
  unfold expandInvocation behindArguments
  split
  . next args =>
    have hargs : args ≠ [] := by simpa using h
    have hconsumed : argsEnd 1 args ≠ 0 := by
      cases args with
      | nil => contradiction
      | cons c cs =>
        unfold argsEnd
        split
        . simp
        . split <;> simp
    have hdrop : ('(' :: args).drop (argsEnd 1 args + 1)
        = match findMatchingParen args with
          | some parenClose => args.drop (parenClose + 1)
          | none => [] := by
      rw [List.drop_succ_cons, argsEnd_eq, findMatchingParen]
      cases findMatchingParen.go 0 args <;> simp
    simp only [hconsumed, if_false]
    split
    . exact ⟨_, _, rfl, hdrop⟩
    . exact ⟨_, _, rfl, hdrop⟩
  . exact ⟨macroDef.body, 0, rfl, by simp⟩

theorem scans_iff {s t : Text} (hs : s ≠ [])
    : Scans defines s t ↔ t = s ∨ Scans defines (behind defines s) t := by
  constructor
  . intro h
    cases h with
    | here => exact Or.inl rfl
    | onward _ h => exact Or.inr h
  . rintro (rfl | h)
    . exact .here t
    . exact .onward hs h

theorem not_cutsArguments_nil : ¬CutsArguments defines [] := by
  rintro ⟨s, hscans, hs⟩
  cases hscans with
  | here => contradiction
  | onward h => contradiction

theorem cutsArguments_iff {s : Text} (hs : s ≠ [])
    : CutsArguments defines s ↔ invocation? defines s = some ['(']
        ∨ CutsArguments defines (behind defines s) := by
  unfold CutsArguments
  simp only [scans_iff hs, or_and_right, exists_or, exists_eq_left]

theorem go_of_invocation?_eq_none {c : Char} {cs : Text} (h : invocation? defines (c :: cs) = none)
    : expandInlineMacros.go order defines 0 (c :: cs)
        = (expandInlineMacros.go order defines 0 cs).map (c :: ·) := by
  rw [expandInlineMacros.go]
  dsimp only
  split
  . next hc =>
    obtain ⟨rfl, hhead⟩ := hc
    split
    . rfl
    . next hdirective =>
      have hget : defines.get? (cs.takeWhile isWordChar) = none := by
        simpa [invocation?, hhead, hdirective, Dict.containsKey] using h
      rw [hget]
  . rfl

variable (order) in
theorem go_of_invocation?_eq_some {c : Char} {cs afterName : Text}
    (h : invocation? defines (c :: cs) = some afterName)
    : afterName = cs.dropWhile isWordChar
        ∧ ∃ macroDef, defines.get? (cs.takeWhile isWordChar) = some macroDef
          ∧ expandInlineMacros.go order defines 0 (c :: cs)
            = (expandInvocation order macroDef afterName).bind fun (expanded, taken) =>
              (expandInlineMacros.go order defines ((cs.takeWhile isWordChar).length + taken)
                cs).bind fun rest =>
                .ok (expanded ++ rest) := by
  unfold invocation? at h
  split at h
  . next heq =>
    obtain ⟨rfl, rfl⟩ := List.cons.inj heq
    dsimp only at h
    split at h
    . next hmacro =>
      cases h
      simp only [Bool.and_eq_true, Bool.not_eq_true'] at hmacro
      obtain ⟨⟨hhead, hdirective⟩, hdefined⟩ := hmacro
      obtain ⟨macroDef, hget⟩ := Dict.containsKey_iff.mp hdefined
      refine ⟨rfl, macroDef, hget, ?_⟩
      rw [expandInlineMacros.go]
      simp only [hhead, hdirective, hget]
      rfl
    . contradiction
  . contradiction

theorem map_eq_panic_iff {α β : Type} {x : Except Halt α} {f : α → β} : x.map f = .error .panic
    ↔ x = .error .panic := by
  cases x <;> simp [Except.map]

theorem bind_ok_eq_panic_iff {α β : Type} {x : Except Halt α} {f : α → β}
    : (x.bind fun a => .ok (f a)) = .error .panic ↔ x = .error .panic := by
  cases x <;> simp [Except.bind]

theorem go_eq_panic_iff (skip : Nat) (line : Text)
    : expandInlineMacros.go order defines skip line = .error .panic
        ↔ CutsArguments defines (line.drop skip) := by
  induction line generalizing skip with
  | nil =>
    rw [List.drop_nil, iff_false_right not_cutsArguments_nil]
    cases skip <;> simp [expandInlineMacros.go]
  | cons c cs ih =>
    cases skip with
    | succ skip => exact ih skip
    | zero =>
      rw [List.drop_zero, cutsArguments_iff (List.cons_ne_nil c cs), behind]
      cases hinvocation : invocation? defines (c :: cs) with
      | none =>
        rw [go_of_invocation?_eq_none hinvocation, map_eq_panic_iff, ih]
        simp
      | some afterName =>
        obtain ⟨hafter, macroDef, _, hgo⟩ := go_of_invocation?_eq_some order hinvocation
        rw [hgo]
        by_cases hopen : afterName = ['(']
        . rw [hopen, expandInvocation_eq_panic]
          simp [Except.bind]
        . obtain ⟨expanded, taken, hexpand, hdrop⟩ := expandInvocation_eq_ok order macroDef hopen
          have hrest : cs.drop ((cs.takeWhile isWordChar).length + taken)
              = behindArguments afterName := by
            have hname : (cs.takeWhile isWordChar ++ cs.dropWhile isWordChar).drop
                  (cs.takeWhile isWordChar).length
                = cs.dropWhile isWordChar := List.drop_left
            rw [List.takeWhile_append_dropWhile] at hname
            rw [← hdrop, hafter, ← List.drop_drop, hname]
          rw [hexpand]
          change Except.bind _ (fun rest => Except.ok (expanded ++ rest)) = Except.error Halt.panic
            ↔ _
          rw [bind_ok_eq_panic_iff, ih, hrest]
          simp [hopen]

/-! ## Lines -/

def isOrdinary (line : Text) : Bool :=
  let trimmed := trim line
  (stripDirective trimmed "undef").isNone && (stripDirective trimmed "include").isNone
    && !(passThrough.any fun directive => (stripDirective trimmed directive).isSome)

def Cuts (defines : Dict Text MacroDef) (line : Text) : Prop :=
  match stripDirective (trim line) "define" with
  | some rest => definedName rest ≠ [] ∧ CutsParams (behindDefinedName rest)
  | none => isOrdinary line ∧ CutsArguments defines line

section

variable {fs : FileSystem π}
  {preprocessFile : π → Dict Text MacroDef → List π → Except Halt (State π)}
variable {includeDirs : List π} {currentFile : π} {st : State π} {line : Text}

theorem not_cuts_of_included {path : π}
    (h : includedFile fs includeDirs currentFile line = some path)
    : ¬Cuts defines line := by
  obtain ⟨hdefine, _, rest, hrest, _⟩ := includedFile_eq_some h
  simp [Cuts, isOrdinary, hdefine, hrest]

theorem processLine_eq_panic_iff_cuts (h : includedFile fs includeDirs currentFile line = none)
    : processLine fs order preprocessFile includeDirs currentFile st line = .error .panic
        ↔ Cuts st.defines line := by
  unfold processLine Cuts
  dsimp only
  cases hdefine : stripDirective (trim line) "define" with
  | some rest =>
    unfold definedName behindDefinedName
    dsimp only
    split
    . next hname => exact iff_of_false nofun fun h => h.1 hname
    . next hname =>
      rw [← parseDefine_eq_panic_iff]
      exact bind_ok_eq_panic_iff.trans (and_iff_right hname).symm
  | none =>
    simp only [isOrdinary]
    cases hundef : stripDirective (trim line) "undef" with
    | some rest => simp
    | none =>
      cases hinclude : stripDirective (trim line) "include" with
      | some rest =>
        have hnone : resolveInclude fs (trim (trimEndChar '>' (trimStartChar '<'
              (trimEndChar '"' (trimStartChar '"' (trim rest)))))) currentFile includeDirs
            = none := by
          simpa [includedFile, hdefine, hundef, hinclude] using h
        simp [hnone]
      | none =>
        dsimp only
        split
        . next hpass => simp [hpass]
        . next hpass =>
          have hscan : expandInlineMacros order line st.defines = .error .panic
              ↔ CutsArguments st.defines line :=
            go_eq_panic_iff 0 line
          simp only [hpass, Bool.not_false, Option.isNone_none, Bool.and_self, true_and]
          exact bind_ok_eq_panic_iff.trans hscan

theorem processLine_eq_panic_iff
    : processLine fs order preprocessFile includeDirs currentFile st line = .error .panic
        ↔
      Cuts st.defines line
        ∨ ∃ path, includedFile fs includeDirs currentFile line = some path
          ∧ preprocessFile path st.defines st.visited = .error .panic := by
  cases hincluded : includedFile fs includeDirs currentFile line with
  | none => simp [processLine_eq_panic_iff_cuts hincluded]
  | some path =>
    rw [processLine_of_included hincluded, bind_ok_eq_panic_iff]
    simp [not_cuts_of_included hincluded]

end

/-! ## Runs -/

def ComesToCut (events : List (Event π)) : Prop :=
  ∃ defines line, .line defines line ∈ events ∧ Cuts defines line

theorem not_comesToCut_nil : ¬ComesToCut ([] : List (Event π)) := by
  rintro ⟨defines, line, hmem, _⟩
  contradiction

theorem comesToCut_expands {file : π} {expanding : List π} {events : List (Event π)}
    : ComesToCut (.expands file expanding :: events) ↔ ComesToCut events := by
  simp [ComesToCut]

theorem comesToCut_line {line : Text} {events : List (Event π)}
    : ComesToCut (.line defines line :: events) ↔ Cuts defines line ∨ ComesToCut events := by
  simp only [ComesToCut, List.mem_cons, Event.line.injEq, or_and_right, exists_or]
  constructor
  . rintro (⟨_, _, ⟨rfl, rfl⟩, hcuts⟩ | h)
    . exact Or.inl hcuts
    . exact Or.inr h
  . rintro (hcuts | h)
    . exact Or.inl ⟨_, _, ⟨rfl, rfl⟩, hcuts⟩
    . exact Or.inr h

theorem comesToCut_append {events events' : List (Event π)}
    : ComesToCut (events ++ events') ↔ ComesToCut events ∨ ComesToCut events' := by
  simp only [ComesToCut, List.mem_append, or_and_right, exists_or]

section

variable {fs : FileSystem π}
  {preprocessFile : π → Dict Text MacroDef → List π → Except Halt (State π)}
variable {events : π → Dict Text MacroDef → List π → List (Event π)} {includeDirs : List π}
  {currentFile : π}

theorem processLine_eq_panic_iff_comesToCut
    (hfile : ∀ path defines visited,
      preprocessFile path defines visited = .error .panic
        ↔ ComesToCut (events path defines visited))
    (st : State π) (line : Text)
    : processLine fs order preprocessFile includeDirs currentFile st line = .error .panic
        ↔ ComesToCut (lineEvents fs events includeDirs currentFile st line) := by
  rw [processLine_eq_panic_iff, lineEvents, comesToCut_line]
  cases hincluded : includedFile fs includeDirs currentFile line with
  | none => simp [not_comesToCut_nil]
  | some path => simp [hfile]

theorem processLines_eq_panic_iff
    (hfile : ∀ path defines visited,
      preprocessFile path defines visited = .error .panic
        ↔ ComesToCut (events path defines visited))
    (lines : List Text) (top : IfdefState) (below : List IfdefState) (st : State π)
    : processLines fs order preprocessFile includeDirs currentFile lines (top :: below) st
        = .error .panic
        ↔ ComesToCut (linesEvents fs order preprocessFile events includeDirs currentFile lines top
          below st) := by
  induction lines generalizing top below st with
  | nil => simp [processLines, linesEvents, not_comesToCut_nil]
  | cons line rest ih =>
    rw [processLines_cons, linesEvents]
    split
    . apply ih
    . rw [comesToCut_append, ← processLine_eq_panic_iff_comesToCut hfile]
      cases processLine fs order preprocessFile includeDirs currentFile st line with
      | error halt => simp [Except.bind, not_comesToCut_nil]
      | ok st' => simp [Except.bind, ih]

end

section

variable [DecidableEq π] (fs : FileSystem π) (order : Dict Text Text → List Text)
  (includeDirs : List π)

theorem preprocessSvFile_eq_panic_iff (fuel : Nat) (expanding : List π) (path : π)
    (defines : Dict Text MacroDef) (visited : List π)
    : preprocessSvFile fs order includeDirs fuel path defines visited = .error .panic
        ↔ ComesToCut (fileEvents fs order includeDirs fuel expanding path defines visited) := by
  induction fuel generalizing expanding path defines visited with
  | zero => simp [preprocessSvFile, fileEvents, not_comesToCut_nil]
  | succ fuel ih =>
    rw [preprocessSvFile, fileEvents]
    dsimp only
    split
    . simp [not_comesToCut_nil]
    . cases fs.readToString path with
      | none => simp [not_comesToCut_nil]
      | some source =>
        dsimp only
        rw [comesToCut_expands, ← processLines_eq_panic_iff (ih _)]
        exact bind_ok_eq_panic_iff

def sourceEvents (fuel : Nat) (currentFile : π) (source : Text) (defines : Dict Text MacroDef)
    (visited : List π)
    : List (Event π) :=
  linesEvents fs order (preprocessSvFile fs order includeDirs fuel)
    (fileEvents fs order includeDirs fuel visited)
    includeDirs currentFile (lines source) ⟨true, true, true⟩ [] ⟨[], defines, visited⟩

/--
The preprocessor does not panic exactly if it comes to no `define` line whose parameter list is cut
within a character, and to no other line that ends where the arguments of a macro begin.
-/
theorem preprocessSvSource_ne_panic_iff (currentFile : π) (source : Text)
    (defines : Dict Text MacroDef) (visited : List π)
    : (∀ fuel, preprocessSvSource fs order (preprocessSvFile fs order includeDirs fuel) includeDirs
        currentFile source
          defines visited ≠ .error .panic)
        ↔
      ∀ fuel defines' line,
        .line defines' line
          ∈ sourceEvents fs order includeDirs fuel currentFile source defines visited →
        ¬Cuts defines' line := by
  apply forall_congr'
  intro fuel
  rw [ne_eq, preprocessSvSource]
  rw [processLines_eq_panic_iff (preprocessSvFile_eq_panic_iff fs order includeDirs fuel visited)]
  simp [ComesToCut, sourceEvents]

theorem preprocessSvSource_eq_panic
    : preprocessSvSource FileSystem.empty Dict.keys
        (preprocessSvFile FileSystem.empty Dict.keys [] 1) []
          "top.sv".toList "`F(".toList (Dict.empty.insert "F".toList (.object "1".toList)) []
        = .error .panic
      ∧ preprocessSvSource FileSystem.empty Dict.keys
        (preprocessSvFile FileSystem.empty Dict.keys [] 1) []
          "top.sv".toList "`define F(é) x".toList Dict.empty []
        = .error .panic := by
  constructor
  . rfl
  . rfl

end

end SvPreprocessor
end HdlGraph
