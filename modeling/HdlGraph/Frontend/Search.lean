import HdlGraph.Core.Glob
import HdlGraph.Frontend.Impact
import HdlGraph.Library.Regex
import HdlGraph.Project.TwoLevels
import HdlGraph.Project.Walks

/-!
This module contains the four ways in which symbols and files are looked for by a pattern with
wildcards, and when they accept the same.
-/

namespace HdlGraph

open Text Wildcard

def regexOfChar (ch : Char) : Text :=
  if ch = '*' then ".*".toList
  else if ch = '?' then ".".toList
  else if ch ∈ ['.', '(', ')', '[', ']', '{', '}', '+', '^', '$', '|', '\\'] then ['\\', ch]
  else [ch]

def regexStr (pattern : Text) : Text := "(?i)".toList ++ pattern.flatMap regexOfChar

def resultLine (label : Text) (id : NodeId) : Text :=
  println ("  ".toList ++ label ++ " (id: ".toList ++ (Nat.repr id).toList ++ ")".toList)

namespace Mcp

variable (u : Unicode) (engine : Regex.Engine) (symbols : SymbolTable)

def filesRe (pattern : Option Text) : Option (Text → Bool) :=
  pattern.bind fun p => if p.isEmpty || p = "*".toList then none else engine.new (regexStr p)

def filesAccept (pattern : Option Text) (path : Text) : Bool :=
  ((filesRe engine pattern).map fun re => re path).getD true

def nodeNameStr (kind : NodeKind InternedString) : Option Text :=
  match kind with
  | .module name | .class name _ | .package name | .interface name | .function name
      _ | .signalDecl name _
  | .modulePort name _ | .moduleInstance name _ | .property name | .variableRef name | .callSite
      name | .method name _
  | .tlmPort name _ => symbols.resolve name
  | _ => none

def nodeKindStr (kind : NodeKind InternedString) : String :=
  match kind with
  | .module _ => "module"
  | .modulePort _ _ => "port"
  | .signalDecl _ _ => "signal"
  | .moduleInstance _ _ => "instance"
  | .class _ _ => "class"
  | .package _ => "package"
  | .function _ _ => "function"
  | .interface _ => "interface"
  | .method _ _ => "method"
  | .property _ => "property"
  | .parameter _ => "parameter"
  | .alwaysBlock _ => "always"
  | .assignment => "assign"
  | .tlmPort _ _ => "tlm_port"
  | .factoryReg _ _ => "factory_reg"
  | .factoryCreate _ => "factory_create"
  | .factoryOverride _ _ => "factory_override"
  | .configDBSet _ => "config_db_set"
  | .configDBGet _ => "config_db_get"
  | _ => "symbol"

def nodeLabel (kind : NodeKind InternedString) : Text :=
  match nodeNameStr symbols kind with
  | some name => (nodeKindStr kind).toList ++ " ".toList ++ name
  | none => (nodeKindStr kind).toList

def searchRe (pattern : Text) : Option (Text → Bool) :=
  if '*' ∈ pattern ∨ '?' ∈ pattern then engine.new (regexStr pattern) else none

def searchAccepts (pattern : Text) (node : GraphNode) : Bool :=
  let label := nodeLabel symbols node.kind
  match searchRe engine pattern with
  | some re => re label || (nodeNameStr symbols node.kind).any re
  | none => contains (u.toLowercase label) (u.toLowercase pattern)

structure SearchLoop where
  results : List Text
  seen : List NodeId

def searchStep (pattern : Text) (st : SearchLoop) (node : GraphNode) : SearchLoop :=
  if node.id ∈ st.seen then
    st
  else if searchAccepts u engine symbols pattern node then
    ⟨st.results ++ [resultLine (nodeLabel symbols node.kind) node.id], st.seen ++ [node.id]⟩
  else
    st

def search (nodes : List GraphNode) (pattern : Text) : Text :=
  let results := (nodes.foldl (searchStep u engine symbols pattern) ⟨[], []⟩).results
  if results.isEmpty then
    "No symbols found matching '".toList ++ pattern ++ "'".toList
  else
    println ("Search results for '".toList ++ pattern ++ "':".toList) ++ results.flatten

end Mcp

namespace Cli

variable (u : Unicode) (symbols : SymbolTable)

def searchAccepts (pattern : Text) (node : GraphNode) : Bool :=
  contains (u.toLowercase (InMemoryGraph.nodeLabel symbols node.kind)) (u.toLowercase pattern)

def searchLines (pattern : Text) (node : GraphNode) : Text :=
  if searchAccepts u symbols pattern node then
    resultLine (u.toLowercase (InMemoryGraph.nodeLabel symbols node.kind)) node.id
  else
    []

def cmdSearch (g : InMemoryGraph) (fileMap : List (Text × NodeId)) (pattern : Text) : Text :=
  println ("Search results for '".toList ++ pattern ++ "':".toList)
    ++ g.visitTwoLevels (fun _ _ node => searchLines u symbols pattern node)
      (fun _ _ _ child => searchLines u symbols pattern child) fileMap

def filesAccept (fuel : Nat) (pattern : Option Text) (path : Text) : Option Bool :=
  match pattern with
  | some p => if !p.isEmpty && p ≠ "*".toList then globMatch u fuel p path else some true
  | none => some true

end Cli

/-! ## The property -/

/-- The whole text matches, without regard to the case of ASCII letters. -/
def WholeMatches (pattern text : Text) : Prop := Matches Regex.asciiSame '?' '*' pattern text

section

variable (u : Unicode) (engine : Regex.Engine) (symbols : SymbolTable) (node : GraphNode)
  (pattern text : Text)

/--
The name of a symbol, or a path that reads like it, is accepted by all if and only if the whole of
it matches.
-/
structure AcceptAlike : Prop where
  mcpFiles : Mcp.filesAccept engine (some pattern) text = true ↔ WholeMatches pattern text
  mcpSearch : Mcp.searchAccepts u engine symbols pattern node = true ↔ WholeMatches pattern text
  cmdSearch : Cli.searchAccepts u symbols pattern node = true ↔ WholeMatches pattern text
  cmdFiles : ∃ accepted bound,
    (∀ fuel, bound < fuel → Cli.filesAccept u fuel (some pattern) text = some accepted)
    ∧ (accepted = true ↔ WholeMatches pattern text)

/-- Some part of the text matches, without regard to case. -/
def PartMatches : Prop := ∃ part, part <:+: text ∧ Matches engine.sameLetter '?' '*' pattern part

/--
The letters of the pattern, its wildcards too, stand one after the other in the label of the command
line.
-/
def WrittenInLabel : Prop :=
  u.toLowercase pattern <:+: u.toLowercase (InMemoryGraph.nodeLabel symbols node.kind)

/-- The text matches where each `*` of the pattern that comes upon one of the text stands for it. -/
def MatchesLowercase : Prop := Glob.InPairedLanguage (u.toLowercase pattern) (u.toLowercase text)

structure Unambiguous : Prop where
  whole : WholeMatches pattern text → WrittenInLabel u symbols node pattern
    ∧ MatchesLowercase u pattern text
  part : ¬WholeMatches pattern text → ¬PartMatches engine pattern (Mcp.nodeLabel symbols node.kind)
    ∧ ¬WrittenInLabel u symbols node pattern ∧ ¬MatchesLowercase u pattern text

end

/-! ## What the regular expressions accept -/

def pieceOfChar (ch : Char) : Regex.Piece :=
  if ch = '*' then .anyMany else if ch = '?' then .any else .char ch

theorem source_pieceOfChar (ch : Char) : (pieceOfChar ch).source = regexOfChar ch := by
  unfold pieceOfChar regexOfChar
  split
  . rfl
  . next hstar =>
    split
    . rfl
    . next hone =>
      have hmeta : ch ∈ Regex.metaChars
          ↔ ch ∈ ['.', '(', ')', '[', ']', '{', '}', '+', '^', '$', '|', '\\'] := by
        simp only [Regex.metaChars, List.mem_cons, hstar, hone, List.not_mem_nil,
          or_false, false_or]
        tauto
      simp only [Regex.Piece.source, hmeta]

theorem regexStr_eq (pattern : Text)
    : regexStr pattern = "(?i)".toList ++ Regex.source (pattern.map pieceOfChar) := by
  rw [regexStr, Regex.source, List.flatMap_map]
  simp only [source_pieceOfChar]

theorem accepts_map_iff {same : Char → Char → Prop} {pattern text : Text} (h : '\n' ∉ text)
    : Regex.Accepts same (pattern.map pieceOfChar) text ↔ Matches same '?' '*' pattern text := by
  induction pattern generalizing text with
  | nil => rfl
  | cons p ps ih =>
    rw [List.map_cons, pieceOfChar, Matches]
    split
    . rw [Regex.Accepts]
      constructor
      . rintro ⟨front, rest, rfl, _, hrest⟩
        rw [List.mem_append, not_or] at h
        exact ⟨rest, List.suffix_append _ _, (ih h.2).mp hrest⟩
      . rintro ⟨rest, ⟨front, rfl⟩, hrest⟩
        rw [List.mem_append, not_or] at h
        exact ⟨front, rest, rfl, h.1, (ih h.2).mpr hrest⟩
    . split
      . next hone =>
        rw [Regex.Accepts]
        constructor
        . rintro ⟨c, rest, rfl, _, hrest⟩
          exact ⟨c, rest, rfl, .inl hone, (ih (List.not_mem_of_not_mem_cons h)).mp hrest⟩
        . rintro ⟨c, rest, rfl, _, hrest⟩
          exact ⟨c, rest, rfl, (List.ne_of_not_mem_cons h).symm,
            (ih (List.not_mem_of_not_mem_cons h)).mpr hrest⟩
      . next hone =>
        rw [Regex.Accepts]
        constructor
        . rintro ⟨c, rest, rfl, hsame, hrest⟩
          exact ⟨c, rest, rfl, .inr hsame, (ih (List.not_mem_of_not_mem_cons h)).mp hrest⟩
        . rintro ⟨c, rest, rfl, hsame, hrest⟩
          exact ⟨c, rest, rfl, hsame.resolve_left hone,
            (ih (List.not_mem_of_not_mem_cons h)).mpr hrest⟩

section

variable {u : Unicode} {engine : Regex.Engine} {symbols : SymbolTable} {node : GraphNode}
  {pattern text : Text}

theorem exists_regex (engine : Regex.Engine) (pattern : Text)
    : ∃ re, engine.new (regexStr pattern) = some re ∧ ∀ text, '\n' ∉ text →
        (re text = true ↔ PartMatches engine pattern text) := by
  obtain ⟨re, hre, haccepts⟩ := engine.new_source (pattern.map pieceOfChar)
  rw [← regexStr_eq] at hre
  refine ⟨re, hre, ?_⟩
  intro text hline
  rw [haccepts, PartMatches]
  constructor
  . rintro ⟨part, hpart, hmatches⟩
    exact ⟨part, hpart, (accepts_map_iff fun hmem => hline (hpart.subset hmem)).mp hmatches⟩
  . rintro ⟨part, hpart, hmatches⟩
    exact ⟨part, hpart, (accepts_map_iff fun hmem => hline (hpart.subset hmem)).mpr hmatches⟩

theorem isEmpty_of_wild (hwild : '*' ∈ pattern ∨ '?' ∈ pattern) : pattern.isEmpty = false := by
  cases pattern with
  | nil => simp at hwild
  | cons => rfl

theorem filesAccept_iff (hwild : '*' ∈ pattern ∨ '?' ∈ pattern) (hstar : pattern ≠ "*".toList)
    (hline : '\n' ∉ text)
    : Mcp.filesAccept engine (some pattern) text = true ↔ PartMatches engine pattern text := by
  obtain ⟨re, hre, haccepts⟩ := exists_regex engine pattern
  rw [Mcp.filesAccept, Mcp.filesRe, Option.bind_some, isEmpty_of_wild hwild, decide_eq_false hstar,
    Bool.or_false, if_neg Bool.false_ne_true, hre, Option.map_some, Option.getD_some,
    haccepts text hline]

theorem newline_notMem_nodeLabel (hname : Mcp.nodeNameStr symbols node.kind = some text)
    (hline : '\n' ∉ text)
    : '\n' ∉ Mcp.nodeLabel symbols node.kind := by
  have hkind : '\n' ∉ (Mcp.nodeKindStr node.kind).toList := by
    unfold Mcp.nodeKindStr
    split <;> decide
  rw [Mcp.nodeLabel, hname]
  simp [hkind, hline]

theorem infix_nodeLabel (hname : Mcp.nodeNameStr symbols node.kind = some text)
    : text <:+: Mcp.nodeLabel symbols node.kind := by
  rw [Mcp.nodeLabel, hname]
  exact (List.suffix_append _ _).isInfix

theorem PartMatches.of_infix {label : Text} (h : PartMatches engine pattern text)
    (hlabel : text <:+: label)
    : PartMatches engine pattern label := by
  obtain ⟨part, hpart, hmatches⟩ := h
  exact ⟨part, hpart.trans hlabel, hmatches⟩

theorem searchAccepts_iff (hname : Mcp.nodeNameStr symbols node.kind = some text)
    (hwild : '*' ∈ pattern ∨ '?' ∈ pattern) (hline : '\n' ∉ text)
    : Mcp.searchAccepts u engine symbols pattern node = true
        ↔ PartMatches engine pattern (Mcp.nodeLabel symbols node.kind) := by
  obtain ⟨re, hre, haccepts⟩ := exists_regex engine pattern
  rw [Mcp.searchAccepts, Mcp.searchRe, if_pos hwild, hre]
  simp only [hname, Option.any_some, Bool.or_eq_true,
    haccepts _ (newline_notMem_nodeLabel hname hline), haccepts _ hline]
  constructor
  . rintro (h | h)
    . exact h
    . exact h.of_infix (infix_nodeLabel hname)
  . exact .inl

theorem cmdSearchAccepts_iff : Cli.searchAccepts u symbols pattern node = true
    ↔ WrittenInLabel u symbols node pattern :=
  contains_iff

theorem cmdFilesAccept_iff (hwild : '*' ∈ pattern ∨ '?' ∈ pattern)
    (hstar : pattern ≠ "*".toList) (P : Prop)
    : (∃ accepted bound,
        (∀ fuel, bound < fuel → Cli.filesAccept u fuel (some pattern) text = some accepted)
        ∧ (accepted = true ↔ P))
        ↔ (MatchesLowercase u pattern text ↔ P) := by
  have hfuel : ∀ fuel, Cli.filesAccept u fuel (some pattern) text
      = globMatchRecursive fuel (u.toLowercase pattern) (u.toLowercase text) := by
    intro fuel
    have hlist : pattern ≠ ['*'] := hstar
    simp [Cli.filesAccept, globMatch, globMatchInner, isEmpty_of_wild hwild, hlist, hwild]
  obtain ⟨accepted, hends, haccepted⟩ :=
    Glob.globMatchStep_ends (u.toLowercase pattern) (u.toLowercase text)
  simp only [hfuel]
  constructor
  . rintro ⟨accepted', bound, hbound, haccepted'⟩
    have hsame : accepted = accepted' := hends.unique ⟨bound, hbound⟩
    exact haccepted.symm.trans (hsame ▸ haccepted')
  . intro h
    obtain ⟨bound, hbound⟩ := hends
    exact ⟨accepted, bound, hbound, haccepted.trans h⟩

theorem WholeMatches.partMatches (h : WholeMatches pattern text)
    : PartMatches engine pattern text :=
  ⟨text, List.infix_rfl, h.mono engine.sameLetter_ascii⟩

/-! ## Names without wildcards -/

theorem toLower_eq_iff {c d : Char} (hd : d = '*' ∨ d = '?') : c.toLower = d ↔ c = d := by
  by_cases hc : c.toNat < 128
  . have hall : ∀ n : Fin 128, ∀ d ∈ ['*', '?'], (Char.ofNat n).toLower = d ↔ Char.ofNat n = d := by
      decide
    have := hall ⟨c.toNat, hc⟩ d (by simpa using hd)
    rwa [Char.ofNat_toNat] at this
  . have hupper : ¬(c.val ≥ 'A'.val ∧ c.val ≤ 'Z'.val) := by
      rintro ⟨_, hle⟩
      exact hc (Nat.lt_of_le_of_lt (UInt32.le_iff_toNat_le.mp hle) (by decide))
    unfold Char.toLower
    rw [dif_neg hupper]

theorem matchesLowercase_iff_of_ascii (hpattern : ∀ c ∈ pattern, c.toNat < 128)
    (htext : ∀ c ∈ text, c.toNat < 128) (hstar : '*' ∉ text)
    : MatchesLowercase u pattern text ↔ WholeMatches pattern text := by
  have hlower : '*' ∉ text.map Char.toLower := by
    rw [List.mem_map]
    rintro ⟨c, hc, heq⟩
    exact hstar ((toLower_eq_iff (.inl rfl)).mp heq ▸ hc)
  rw [MatchesLowercase, u.toLowercase_ascii hpattern, u.toLowercase_ascii htext,
    Glob.inPairedLanguage_iff_of_notMem hlower]
  exact matches_map (fun _ => toLower_eq_iff (.inr rfl)) (fun _ => toLower_eq_iff (.inl rfl))

theorem not_writtenInLabel (hwild : '*' ∈ pattern ∨ '?' ∈ pattern)
    (hpattern : ∀ c ∈ pattern, c.toNat < 128)
    (hascii : ∀ c ∈ InMemoryGraph.nodeLabel symbols node.kind, c.toNat < 128)
    (hplain : ∀ c ∈ InMemoryGraph.nodeLabel symbols node.kind, c ≠ '*' ∧ c ≠ '?')
    : ¬WrittenInLabel u symbols node pattern := by
  rw [WrittenInLabel, u.toLowercase_ascii hpattern, u.toLowercase_ascii hascii]
  intro hwritten
  have hnot : ∀ d, d = '*' ∨ d = '?' → d ∉ pattern := by
    intro d hd hmem
    have hlower : d ∈ pattern.map Char.toLower :=
      List.mem_map.mpr ⟨d, hmem, (toLower_eq_iff hd).mpr rfl⟩
    obtain ⟨c, hc, heq⟩ := List.mem_map.mp (hwritten.subset hlower)
    rw [toLower_eq_iff hd] at heq
    rcases hd with rfl | rfl
    . exact (hplain c hc).1 heq
    . exact (hplain c hc).2 heq
  exact hwild.elim (hnot '*' (.inl rfl)) (hnot '?' (.inr rfl))

/--
For a symbol whose name is in ASCII and has no wildcards, there is agreement only where nothing is
found.
-/
theorem unambiguous_iff_of_ascii (hname : Mcp.nodeNameStr symbols node.kind = some text)
    (hwild : '*' ∈ pattern ∨ '?' ∈ pattern) (hpattern : ∀ c ∈ pattern, c.toNat < 128)
    (htext : ∀ c ∈ text, c.toNat < 128) (hstar : '*' ∉ text)
    (hascii : ∀ c ∈ InMemoryGraph.nodeLabel symbols node.kind, c.toNat < 128)
    (hplain : ∀ c ∈ InMemoryGraph.nodeLabel symbols node.kind, c ≠ '*' ∧ c ≠ '?')
    : Unambiguous u engine symbols node pattern text
        ↔ ¬PartMatches engine pattern (Mcp.nodeLabel symbols node.kind) := by
  have hlowercase : MatchesLowercase u pattern text ↔ WholeMatches pattern text :=
    matchesLowercase_iff_of_ascii hpattern htext hstar
  have hwritten : ¬WrittenInLabel u symbols node pattern :=
    not_writtenInLabel hwild hpattern hascii hplain
  have hpart : WholeMatches pattern text →
      PartMatches engine pattern (Mcp.nodeLabel symbols node.kind) :=
    fun h => h.partMatches.of_infix (infix_nodeLabel hname)
  constructor
  . intro hclear
    by_cases hwhole : WholeMatches pattern text
    . exact absurd (hclear.whole hwhole).1 hwritten
    . exact (hclear.part hwhole).1
  . intro hnone
    have hwhole := mt hpart hnone
    exact ⟨fun h => absurd h hwhole, fun _ => ⟨hnone, hwritten, mt hlowercase.mp hwhole⟩⟩

/--
All accept the name if and only if the whole of it matches, exactly if a name that matches is also
found by the letters of the pattern, and nothing is found in a label whose name does not match.
-/
theorem acceptAlike_iff (hname : Mcp.nodeNameStr symbols node.kind = some text)
    (hwild : '*' ∈ pattern ∨ '?' ∈ pattern) (hstar : pattern ≠ "*".toList) (hline : '\n' ∉ text)
    : AcceptAlike u engine symbols node pattern text
        ↔ Unambiguous u engine symbols node pattern text := by
  have hlabel : PartMatches engine pattern text →
      PartMatches engine pattern (Mcp.nodeLabel symbols node.kind) :=
    fun h => h.of_infix (infix_nodeLabel hname)
  have hwhole : WholeMatches pattern text → PartMatches engine pattern text :=
    WholeMatches.partMatches
  constructor
  . intro halike
    have hsearch := (searchAccepts_iff hname hwild hline).symm.trans halike.mcpSearch
    have hcmd := cmdSearchAccepts_iff.symm.trans halike.cmdSearch
    have hfiles := (cmdFilesAccept_iff hwild hstar _).mp halike.cmdFiles
    exact ⟨fun h => ⟨hcmd.mpr h, hfiles.mpr h⟩,
      fun h => ⟨mt hsearch.mp h, mt hcmd.mp h, mt hfiles.mp h⟩⟩
  . intro hclear
    have hpart := hclear.part
    constructor
    . rw [filesAccept_iff hwild hstar hline]
      exact ⟨fun h => not_not.mp fun hnot => (hpart hnot).1 (hlabel h), hwhole⟩
    . rw [searchAccepts_iff hname hwild hline]
      exact ⟨fun h => not_not.mp fun hnot => (hpart hnot).1 h, fun h => hlabel (hwhole h)⟩
    . rw [cmdSearchAccepts_iff]
      exact ⟨fun h => not_not.mp fun hnot => (hpart hnot).2.1 h, fun h => (hclear.whole h).1⟩
    . rw [cmdFilesAccept_iff hwild hstar]
      exact ⟨fun h => not_not.mp fun hnot => (hpart hnot).2.2 h, fun h => (hclear.whole h).2⟩

end

theorem not_wholeMatches_cons {p c : Char} {ps s : Text} (hp : p ≠ '*') (hone : p ≠ '?')
    (hsame : p.toLower ≠ c.toLower)
    : ¬WholeMatches (p :: ps) (c :: s) := by
  rw [WholeMatches, Matches, if_neg hp]
  rintro ⟨d, rest, heq, htakes, _⟩
  rw [← (List.cons.inj heq).1] at htakes
  exact htakes.elim hone hsame

/-! ## Modules -/

def searchSymbols : SymbolTable :=
  ["my_apb_driver", "fifo"].foldl (fun symbols s => (symbols.intern s.toList).2) .new

def searchNode (name : Nat) : GraphNode := ⟨1, .module ⟨name⟩, none, 1, 0, 0⟩

theorem acceptAlike_iff_fifo
    : AcceptAlike Unicode.ascii .ascii searchSymbols (searchNode 1) "apb_*".toList "fifo".toList
        ↔ Unambiguous Unicode.ascii .ascii searchSymbols (searchNode 1) "apb_*".toList
          "fifo".toList :=
  acceptAlike_iff (by decide) (by decide) (by decide) (by decide)

theorem not_acceptAlike_driver
    : ¬∀ u engine symbols node pattern text, Mcp.nodeNameStr symbols node.kind = some text →
        '*' ∈ pattern ∨ '?' ∈ pattern →
        pattern ≠ "*".toList → '\n' ∉ text → AcceptAlike u engine symbols node pattern text := by
  intro h
  have halike :=
    h Unicode.ascii .ascii searchSymbols (searchNode 0) "apb_*".toList "my_apb_driver".toList
    (by decide) (by decide) (by decide) (by decide)
  have hwhole : WholeMatches ('a' :: "pb_*".toList) ('m' :: "y_apb_driver".toList) :=
    halike.mcpFiles.mp (by decide)
  exact not_wholeMatches_cons (by decide) (by decide) (by decide) hwhole

end HdlGraph
