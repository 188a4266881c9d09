import HdlGraph.Core.Helpers
import HdlGraph.Frontend.Impact
import HdlGraph.Parse.Extractor.Tree
import HdlGraph.Project.TwoLevels

/-!
This module contains the search for the definitions of a symbol. The command line and the tool
server go over the same two levels below the files and look for some kinds at each of them.
-/

namespace HdlGraph

open scoped List

structure Definition where
  kind : Text
  file : Option NodeId
  node : NodeId
  deriving DecidableEq, Repr

def Definition.line (symbol : Text) (d : Definition) : Text :=
  d.kind ++ " ".toList ++ symbol ++ "  (".toList
    ++ (d.file.elim [] fun fid => "file_id: ".toList ++ (Nat.repr fid).toList ++ ", ".toList)
    ++ "node_id: ".toList ++ (Nat.repr d.node).toList ++ ")".toList

/-! ## The search -/

section Search

variable (g : InMemoryGraph) (symbols : SymbolTable)

def topName : NodeKind InternedString → Option Text
  | .module name | .class name _ | .package name => symbols.resolve name
  | _ => none

def childName : NodeKind InternedString → Option Text
  | .modulePort name _ | .signalDecl name _ | .moduleInstance name _ => symbols.resolve name
  | _ => none

-- The loops of both commands; the command line has the names of these kinds in a function of its
-- own
def definitions (fileMap : List (Text × NodeId)) (symbol : Text) : List Definition :=
  g.visitTwoLevels
    (fun _ fid node => if topName symbols node.kind
      = some symbol then [⟨nodeKindStr node.kind, some fid, node.id⟩] else [])
    (fun _ _ _ child => if childName symbols child.kind
      = some symbol then [⟨nodeKindStr child.kind, none, child.id⟩] else [])
    fileMap

def cmdDef (fileMap : List (Text × NodeId)) (symbol : Text) : Text :=
  ((definitions g symbols fileMap symbol).flatMap fun d => println (d.line symbol))
    ++ if (definitions g symbols fileMap symbol).isEmpty
    then println ("Definition not found: ".toList ++ symbol) else []

def DefTool.run (fileMap : List (Text × NodeId)) (symbol : Text) : Text :=
  if (definitions g symbols fileMap symbol).isEmpty then
    "Definition not found: ".toList ++ symbol
  else
    "Definition of '".toList ++ symbol ++ "':\n".toList
      ++ (definitions g symbols fileMap symbol).flatMap fun d =>
        "  ".toList ++ d.line symbol ++ "\n".toList

end Search

/-! ## The definitions of a project -/

def NodeKind.definedSymbol : NodeKind ν → Option ν
  | module name | .class name _ | package name | modulePort name _ | signalDecl name
      _ | moduleInstance name _
  | function name _ => some name
  | _ => none

namespace ProjectState

variable (parse : Text → Option Cst → Cst) (prepare : Text → Text → Text) (files : List FileRead)
  (symbol : Text)

/--
Both commands report every node with the symbol once, in whatever order the file map is gone over.
-/
def FindsDefinitions : Prop :=
  ∀ fileMap, fileMap ~ (loadFiles parse prepare files).fileMap.toList →
    (definitions (loadFiles parse prepare files).graph (loadFiles parse prepare files).symbols
      fileMap symbol).map
        Definition.node
      ~ ((loadFiles parse prepare files).graph.allNodes.filter fun node =>
          node.kind.definedSymbol.bind (loadFiles parse prepare files).symbols.resolve
            = some symbol).map GraphNode.id

end ProjectState

namespace Selection

def definitions (symbol : Text) : Selection where
  kinds kind := kind.definedSymbol = some symbol
  top
    | .module name | .class name _ | .package name => name = symbol
    | _ => false
  below
    | _, .modulePort name _ | _, .signalDecl name _ | _, .moduleInstance name _ => name = symbol
    | _, _ => false
  kinds_of_top := by
    intro kind
    cases kind <;> simp [NodeKind.definedSymbol]
  kinds_of_below := by
    intro edge kind
    cases kind <;> simp [NodeKind.definedSymbol]
  top_of_kinds := by
    intro kind
    cases kind <;> simp [NodeKind.definedSymbol, NodeKind.isClass, NodeKind.IsTopLevel]
  sourceFile := rfl

end Selection

/-! ## Where the search is complete -/

namespace ProjectState

section Reading

variable {symbols : SymbolTable} {symbol : Text}

theorem definedSymbol_of_resolve (kind : NodeKind InternedString) (named : NodeKind Text)
    (h : kind.resolve symbols = some named)
    : decide (kind.definedSymbol.bind symbols.resolve = some symbol)
        = (Selection.definitions symbol).kinds named := by
  cases NodeKind.says_of_resolve h <;> simp [NodeKind.definedSymbol, Selection.definitions, *]

theorem topName_of_resolve {kind : NodeKind InternedString} {named : NodeKind Text}
    (h : kind.resolve symbols = some named)
    : topName symbols kind = some symbol ↔ (Selection.definitions symbol).top named := by
  cases NodeKind.says_of_resolve h <;> simp [topName, Selection.definitions, *]

theorem childName_of_resolve (edge : EdgeType) {kind : NodeKind InternedString}
    {named : NodeKind Text} (h : kind.resolve symbols = some named)
    : childName symbols kind = some symbol ↔ (Selection.definitions symbol).below edge named := by
  cases NodeKind.says_of_resolve h <;> simp [childName, Selection.definitions, *]

end Reading

variable (parse : Text → Option Cst → Cst) (prepare : Text → Text → Text) (files : List FileRead)
  (symbol : Text)

theorem perm_definitions {fileMap : List (Text × NodeId)}
    (hfileMap : fileMap ~ (loadFiles parse prepare files).fileMap.toList)
    : (definitions (loadFiles parse prepare files).graph (loadFiles parse prepare files).symbols
        fileMap symbol).map
          Definition.node
        ~ (seenNodes parse prepare files (.definitions symbol)).map (·.2.id) := by
  apply (loaded_foldl parse prepare files).perm_map_visit Definition.node
    (fun _ id => id) _ _ hfileMap
  . intro file fid node named h
    simp only [← topName_of_resolve h, apply_ite (List.map _), List.map_cons, List.map_nil]
    rfl
  . intro file node ce child named h
    simp only [← childName_of_resolve ce.edgeType h, apply_ite (List.map _),
      List.map_cons, List.map_nil]
    rfl

/--
The search finds every definition exactly once if and only if no function has the symbol, and
whatever else has it is where the loops get once: a module or package of a file, or a port, signal
or instance right below an item of a file that is not a class, the path of the file being loaded
only once.
-/
theorem findsDefinitions_iff
    : FindsDefinitions parse prepare files symbol
        ↔ ShowsAll parse prepare files (.definitions symbol) := by
  have h := loaded_foldl parse prepare files
  have hnodes := h.perm_filter_allNodes definedSymbol_of_resolve (s := .definitions symbol)
  rw [← perm_map_id_iff]
  constructor
  . intro hfinds
    exact (perm_definitions parse prepare files symbol (.refl _)).symm.trans
      ((hfinds _ (.refl _)).trans hnodes)
  . intro hperm fileMap hfileMap
    exact (perm_definitions parse prepare files symbol hfileMap).trans (hperm.trans hnodes.symm)

def parseClass (text : Text) (_old : Option Cst) : Cst :=
  .node .other [] text ⟨0, 0⟩ [GraphExtractor.emptyClass]

def classFile : FileRead := ⟨"c.sv".toList, some "class c; endclass".toList⟩

-- The class is reported once for each of the two edges from its file
theorem not_findsDefinitions_class
    : ¬FindsDefinitions parseClass (fun source _ => source) [classFile] "c".toList := by
  intro h
  have hlength := (h _ (.refl _)).length_eq
  revert hlength
  decide +kernel

end ProjectState
end HdlGraph
