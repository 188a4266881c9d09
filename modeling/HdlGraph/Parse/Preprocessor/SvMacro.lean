import HdlGraph.Library.Dict
import HdlGraph.Library.Text
import Mathlib.Data.List.Sort

/-!
This module contains the macros of the standalone preprocessor: their definition, the substitution
of the formal parameters in a body and the expansion of the invocations in a line.
-/

namespace HdlGraph
namespace SvPreprocessor

open Text

structure MacroDef where
  -- `none` for an object-like macro
  params : Option (List Text)
  defaults : Dict Text Text
  body : Text

def MacroDef.object (body : Text) : MacroDef := ⟨none, Dict.empty, body⟩

def MacroDef.function (params : List Text) (defaults : Dict Text Text) (body : Text) : MacroDef :=
  ⟨some params, defaults, body⟩

inductive Halt where
  | panic
  | outOfFuel
deriving DecidableEq, Repr

def findMatchingParen (s : Text) : Option Nat := go 0 s
where
  go (depth : Nat) : Text → Option Nat
  | [] => none
  | ch :: rest =>
    if ch = '(' then (go (depth + 1) rest).map (· + 1)
    else if ch = ')' then
      if depth = 0 then some 0 else (go (depth - 1) rest).map (· + 1)
    else (go depth rest).map (· + 1)

def parseMacroParams (s : Text) : List Text × Dict Text Text :=
  (s.splitOn ',').foldl
    (fun (names, defaults) part =>
      let part := trim part
      if part = [] then
        (names, defaults)
      else
        match before? "=".toList part with
        | some front =>
          let name := trim front
          let default := trim (part.drop (front.length + 1))
          (names ++ [name], defaults.insert name default)
        | none => (names ++ [part], defaults))
    ([], Dict.empty)

structure ArgScan where
  args : List Text
  current : Text
  depth : Int
  inQuote : Option Char

def ArgScan.push (st : ArgScan) (ch : Char) : ArgScan := { st with current := st.current ++ [ch] }

def ArgScan.step (st : ArgScan) (ch : Char) : ArgScan :=
  if (ch = '"' ∨ ch = '\x27') ∧ st.inQuote = none then { st.push ch with inQuote := some ch }
  else if st.inQuote = some ch then { st.push ch with inQuote := none }
  else if st.inQuote.isSome then st.push ch
  else if ch = '(' then { st.push ch with depth := st.depth + 1 }
  else if ch = ')' then { st.push ch with depth := st.depth - 1 }
  else if ch = ','
    ∧ st.depth = 0 then { st with args := st.args ++ [trim st.current], current := [] }
  else st.push ch

def parseMacroArgs (s : Text) : List Text :=
  let st := s.foldl ArgScan.step ⟨[], [], 0, none⟩
  if trim st.current ≠ [] then st.args ++ [trim st.current] else st.args

def replaceWholeWord (s pat new : Text) : Text := if pat = [] then s else go 0 none s
where
  -- `skip` characters of the occurrence replaced last are still ahead; `prev` is the one before
  go : Nat → Option Char → Text → Text
  | _, _, [] => []
  | skip + 1, _, c :: cs => go skip (some c) cs
  | 0, prev, c :: cs =>
    if startsWith (c :: cs) pat && !prev.any isWordChar && !((c :: cs).drop pat.length).head?.any
      isWordChar then
      new ++ go (pat.length - 1) (some c) cs
    else
      c :: go 0 (some c) cs

def substitutions (params : List Text) (defaults : Dict Text Text) (actualArgs : List Text)
    : Dict Text Text :=
  (params.zipIdx).foldl
    (fun subs (paramName, idx) =>
      subs.insert paramName (actualArgs[idx]?.getD (defaults.getD paramName [])))
    Dict.empty

-- `order` is the order in which the `HashMap` of the values yields its keys
def substituteMacroBody (order : Dict Text Text → List Text) (body : Text) (params : List Text)
    (defaults : Dict Text Text) (actualArgs : List Text)
    : Text :=
  let subs := substitutions params defaults actualArgs
  let sortedParams := (order subs).insertionSort fun p q => byteLen q ≤ byteLen p
  sortedParams.foldl (fun result param => replaceWholeWord result param (subs.getD param [])) body

def isDirective (name : Text) : Bool :=
  ["ifdef", "ifndef", "elsif", "else", "endif", "define", "undef", "include", "begin_keywords",
    "end_keywords",
    "line", "resetall", "timescale", "celldefine", "endcelldefine", "default_nettype",
      "undefineall",
    "pragma"].any (·.toList = name)

def argsEnd (depth : Nat) : Text → Nat
  | [] => 0
  | ch :: rest =>
    if ch = '(' then argsEnd (depth + 1) rest + 1
    else if ch = ')' then
      if depth = 1 then 1 else argsEnd (depth - 1) rest + 1
    else argsEnd depth rest + 1

variable (order : Dict Text Text → List Text)

-- The expansion of a macro, and how many characters of the text behind its name it takes. The slice
-- of the arguments ends one character before the end of the loop over them, and panics where the
-- opening parenthesis is the last character.
def expandInvocation (macroDef : MacroDef) (afterName : Text) : Except Halt (Text × Nat) :=
  match afterName with
  | '(' :: rest =>
    let consumed := argsEnd 1 rest
    if consumed = 0 then
      .error .panic
    else
      let argsText := rest.take (consumed - 1)
      match macroDef.params with
      | some formalParams =>
        .ok (substituteMacroBody order macroDef.body formalParams macroDef.defaults
          (parseMacroArgs argsText),
          consumed + 1)
      | none => .ok (macroDef.body, consumed + 1)
  | _ => .ok (macroDef.body, 0)

def expandInlineMacros (line : Text) (defines : Dict Text MacroDef) : Except Halt Text := go 0 line
where
  -- `skip` characters of the invocation expanded last are still ahead
  go : Nat → Text → Except Halt Text
  | _, [] => .ok []
  | skip + 1, _ :: cs => go skip cs
  | 0, c :: cs =>
    if c = '`' ∧ cs.head?.any Char.isAlpha = true then
      let macroName := cs.takeWhile isWordChar
      if isDirective macroName then
        (go 0 cs).map (c :: ·)
      else
        match defines.get? macroName with
        | some macroDef => do
          let (expanded, taken) ← expandInvocation order macroDef (cs.dropWhile isWordChar)
          let rest ← go (macroName.length + taken) cs
          return expanded ++ rest
        | none => (go 0 cs).map (c :: ·)
    else
      (go 0 cs).map (c :: ·)

end SvPreprocessor
end HdlGraph
