import HdlGraph.Library.Rose
import HdlGraph.Project.Describes

/-!
This module contains the trees that the incremental index extracts from. The old tree of a file goes
to the parser as it was stored, so the contract of the parser says something about the new one only
if there was no old tree.
-/

namespace HdlGraph

/-! ## The trees of the parser -/

-- A tree of the parser holds no text, a node's text is read from the content it was parsed from
abbrev Shape := Rose (SyntaxKind × List FieldName × Position)

namespace Cst

mutual

def shape : Cst → Shape
  | node kind fields _ pos children => .node (kind, fields, pos) (shapeAll children)

def shapeAll : List Cst → List Shape
  | [] => []
  | child :: rest => shape child :: shapeAll rest

end

end Cst

namespace IndexedProject

/--
What is known of the parser: an old tree does not matter if it was edited to describe the change to
the new text.
-/
structure Contract (parse : Text → Option Cst → Cst) (edit : Cst → Text → Text → Cst) : Prop where
  parse_edit : ∀ old new, parse new (some (edit (parse old none) old new)) = parse new none

variable {H : Type}

def extractedTree? [DecidableEq H] (parse : Text → Option Cst → Cst) (computeFileHash : Text → H)
    (state : IndexedProject H) (file : FileRead) : Option Cst :=
  match file.content with
  | none => none
  | some content =>
    if state.isUnchanged (state.fileMap.getD file.rel 0) (computeFileHash content) then none
    else some (parse content (state.fileTrees.get? file.rel))

section

variable [DecidableEq H] {parse : Text → Option Cst → Cst} {computeFileHash : Text → H}
  {state : IndexedProject H} {file : FileRead}

theorem updateFile_of_extractedTree?_eq_none
    (h : extractedTree? parse computeFileHash state file = none)
    : updateFile parse computeFileHash state file = state := by
  unfold extractedTree? at h
  unfold updateFile
  cases hcontent : file.content with
  | none => rfl
  | some content =>
    rw [hcontent] at h
    dsimp only at h ⊢
    split at h
    . next hunchanged => rw [if_pos hunchanged]
    . contradiction

theorem updateFile_of_extractedTree?_eq_some {tree : Cst}
    (h : extractedTree? parse computeFileHash state file = some tree)
    : let result := state.extractor.extractChangeset tree (state.fileMap.getD file.rel 0)
        (state.fileNodeIds.getD file.rel []) (state.fileEdges.getD file.rel [])
      (updateFile parse computeFileHash state file).graph = result.1.applyTo state.graph
        ∧ (updateFile parse computeFileHash state file).extractor = result.2
        ∧ (updateFile parse computeFileHash state file).fileTrees.get? file.rel = some tree := by
  unfold extractedTree? at h
  unfold updateFile
  cases hcontent : file.content with
  | none =>
    rw [hcontent] at h
    contradiction
  | some content =>
    rw [hcontent] at h
    dsimp only at h ⊢
    split at h
    . contradiction
    . next hchanged =>
      rw [Option.some.injEq] at h
      rw [if_neg hchanged, h]
      exact ⟨rfl, rfl, Dict.get?_insert_self _ _ _⟩

end

/-! ## What is stored for a file -/

structure Remembers (parse : Text → Option Cst → Cst) (computeFileHash : Text → H)
    (state : IndexedProject H) (contents : Dict Text Text) : Prop where
  trees : ∀ rel, state.fileTrees.get? rel = none ↔ contents.get? rel = none
  parsed : ∀ rel tree, state.fileTrees.get? rel = some tree → ∃ text old, tree = parse text old
  unread : ∀ rel, contents.get? rel = none → state.fileMap.get? rel = none
  hashes : ∀ rel content, contents.get? rel = some content →
    ∃ id, state.fileMap.get? rel = some id ∧ id ≠ 0
      ∧ state.fileHashes.get? id = some (computeFileHash content)
  lt : ∀ rel id, state.fileMap.get? rel = some id → id < state.extractor.nextId

namespace Remembers

variable {parse : Text → Option Cst → Cst} {computeFileHash : Text → H} {state : IndexedProject H}
  {contents : Dict Text Text}

theorem new : Remembers parse computeFileHash (IndexedProject.new H) .empty where
  trees := by simp [IndexedProject.new]
  parsed := by simp [IndexedProject.new]
  unread := by simp [IndexedProject.new]
  hashes := by simp
  lt := by simp [IndexedProject.new]

theorem insert (h : Remembers parse computeFileHash state contents) (old : Option Cst)
    {rel content : Text} {state' : IndexedProject H}
    (htrees : ∀ k, state'.fileTrees.get? k = if k = rel then some (parse content old)
      else state.fileTrees.get? k)
    (hmap : ∀ k, state'.fileMap.get? k = if k = rel then some state.extractor.nextId
      else state.fileMap.get? k)
    (hhashes : ∀ k, state'.fileHashes.get? k
      = if k = state.extractor.nextId then some (computeFileHash content)
        else state.fileHashes.get? k)
    (hnext : state.extractor.nextId < state'.extractor.nextId)
    : Remembers parse computeFileHash state' (contents.insert rel content) where
  trees := by
    intro k
    rw [htrees, Dict.get?_insert]
    split
    . exact iff_of_false nofun nofun
    . exact h.trees k
  parsed := by
    intro k tree hk
    rw [htrees] at hk
    split at hk
    . exact ⟨content, old, (Option.some.inj hk).symm⟩
    . exact h.parsed k tree hk
  unread := by
    intro k hk
    rw [Dict.get?_insert] at hk
    rw [hmap]
    split at hk
    . contradiction
    . next hne =>
      rw [if_neg hne]
      exact h.unread k hk
  hashes := by
    intro k c hk
    rw [Dict.get?_insert] at hk
    rw [hmap]
    split at hk
    . next heq =>
      rw [if_pos heq]
      refine ⟨_, rfl, Nat.pos_iff_ne_zero.mp state.extractor.nextId_pos, ?_⟩
      rw [hhashes, if_pos rfl, Option.some.inj hk]
    . next hne =>
      rw [if_neg hne]
      obtain ⟨id, hid, hpos, hhash⟩ := h.hashes k c hk
      refine ⟨id, hid, hpos, ?_⟩
      rw [hhashes, if_neg (Nat.ne_of_lt (h.lt k id hid)), hhash]
  lt := by
    intro k id hk
    rw [hmap] at hk
    split at hk
    . rw [← Option.some.inj hk]
      exact hnext
    . exact Nat.lt_trans (h.lt k id hk) hnext

theorem nextId_lt_extract (ex : GraphExtractor) (tree : Cst) (fileId : Nat)
    : ex.nextId < (ex.extract tree fileId).2.nextId := by
  rw [(ex.extract_extracts tree fileId).nextId]
  exact Nat.lt_add_of_pos_right (GraphExtractor.fileOutline tree).size_pos

theorem indexFile (h : Remembers parse computeFileHash state contents) (file : FileRead)
    : Remembers parse computeFileHash (indexFile parse computeFileHash state file)
        (readInto contents file) := by
  unfold IndexedProject.indexFile readInto
  cases file.content with
  | none => exact h
  | some content =>
    have hhead := state.extractor.head?_extract (parse content none) 0
    apply h.insert none
    . intro k
      exact Dict.get?_insert _ _ _ _
    . intro k
      simp only [hhead, Option.getD_some, Dict.get?_insert]
    . intro k
      simp only [hhead, Option.getD_some, Dict.get?_insert]
    . exact nextId_lt_extract state.extractor (parse content none) 0

theorem reread (h : Remembers parse computeFileHash state contents) {rel content : Text}
    {id : NodeId} (hid : state.fileMap.get? rel = some id) (hne : id ≠ 0)
    (hstored : state.fileHashes.get? id = some (computeFileHash content))
    : Remembers parse computeFileHash state (contents.insert rel content) where
  trees := by
    intro k
    rw [Dict.get?_insert, h.trees]
    split
    . next heq =>
      have hread : contents.get? rel ≠ none := by
        intro hnone
        rw [h.unread rel hnone] at hid
        contradiction
      exact iff_of_false (heq ▸ hread) (by simp)
    . rfl
  parsed := h.parsed
  unread := by
    intro k hk
    rw [Dict.get?_insert] at hk
    split at hk
    . contradiction
    . exact h.unread k hk
  hashes := by
    intro k c hk
    rw [Dict.get?_insert] at hk
    split at hk
    . next heq => exact ⟨id, heq ▸ hid, hne, Option.some.inj hk ▸ hstored⟩
    . exact h.hashes k c hk
  lt := h.lt

theorem updateFile [DecidableEq H] (h : Remembers parse computeFileHash state contents)
    (file : FileRead)
    : Remembers parse computeFileHash (updateFile parse computeFileHash state file)
        (readInto contents file) := by
  unfold IndexedProject.updateFile readInto
  cases file.content with
  | none => exact h
  | some content =>
    dsimp only
    split
    . next hunchanged =>
      obtain ⟨hne, hstored⟩ := hunchanged
      -- a file with an id was read, and its stored hash is that of the content just read
      obtain ⟨id, hid⟩ : ∃ id, state.fileMap.get? file.rel = some id := by
        rw [← Option.ne_none_iff_exists']
        intro hnone
        rw [Dict.getD, hnone] at hne
        exact hne rfl
      rw [Dict.getD, hid, Option.getD_some] at hne hstored
      exact h.reread hid hne hstored
    . generalize hold : state.fileTrees.get? file.rel = old
      have hpos := state.extractor.nextId_pos
      generalize hfileId : state.fileMap.getD file.rel 0 = fileId at *
      have hhead :=
        state.extractor.head?_addedNodes (parse content old) fileId
          (state.fileNodeIds.getD file.rel [])
        (state.fileEdges.getD file.rel [])
      apply h.insert old
      . intro k
        simp only [Dict.get?_insert, Dict.get?_remove]
        grind
      . intro k
        simp only [hhead, Option.getD_some, Nat.pos_iff_ne_zero.mp hpos, ne_eq, not_false_eq_true,
          if_true, Dict.get?_insert]
      . intro k
        simp only [hhead, Option.getD_some, Nat.pos_iff_ne_zero.mp hpos, ne_eq, not_false_eq_true,
          if_true, Dict.get?_insert]
      . exact nextId_lt_extract state.extractor (parse content old) fileId

theorem exists_extractedTree?_eq [DecidableEq H]
    (h : Remembers parse computeFileHash state contents) {rel old content : Text}
    (hold : contents.get? rel = some old) (hchanged : computeFileHash old ≠ computeFileHash content)
    : ∃ tree, state.fileTrees.get? rel = some tree
        ∧ extractedTree? parse computeFileHash state ⟨rel, some content⟩
          = some (parse content (some tree)) := by
  obtain ⟨id, hid, _, hhash⟩ := h.hashes rel old hold
  obtain ⟨tree, htree⟩ : ∃ tree, state.fileTrees.get? rel = some tree := by
    rw [← Option.ne_none_iff_exists', ne_eq, h.trees, hold]
    exact nofun
  refine ⟨tree, htree, ?_⟩
  unfold extractedTree?
  dsimp only
  rw [Dict.getD, hid, Option.getD_some, if_neg, htree]
  rintro ⟨_, hstored⟩
  rw [hhash, Option.some.injEq] at hstored
  exact hchanged hstored

end Remembers

theorem remembers_indexAndUpdate [DecidableEq H] (parse : Text → Option Cst → Cst)
    (computeFileHash : Text → H) (files : List FileRead) (rounds : List (List FileRead))
    : Remembers parse computeFileHash (indexAndUpdate parse computeFileHash files rounds)
        (contentsOf (files ++ rounds.flatten)) := by
  have hfold (step : IndexedProject H → FileRead → IndexedProject H)
      (hstep : ∀ state contents file, Remembers parse computeFileHash state contents →
        Remembers parse computeFileHash (step state file) (readInto contents file)) :
      ∀ (reads : List FileRead) state contents, Remembers parse computeFileHash state contents →
        Remembers parse computeFileHash (reads.foldl step state)
          (reads.foldl readInto contents) := by
    intro reads
    induction reads with
    | nil => exact fun _ _ h => h
    | cons file rest ih => exact fun state contents h => ih _ _ (hstep state contents file h)
  have hindex := hfold _ (fun _ _ file h => h.indexFile file) files _ _ Remembers.new
  have hupdate := hfold _ (fun _ _ file h => h.updateFile file) rounds.flatten _ _ hindex
  rw [List.foldl_flatten] at hupdate
  rw [contentsOf, List.foldl_append]
  exact hupdate

theorem eq_parse_of_hashes_eq [DecidableEq H] {parse : Text → Option Cst → Cst}
    {computeFileHash : Text → H} {state : IndexedProject H} {contents : Dict Text Text}
    (h : Remembers parse computeFileHash state contents) {rel content : Text} {tree : Cst}
    (hsame : ∀ old, contents.get? rel = some old → computeFileHash old = computeFileHash content)
    (htree : tree ∈ extractedTree? parse computeFileHash state ⟨rel, some content⟩)
    : tree = parse content none := by
  unfold extractedTree? at htree
  dsimp only at htree
  cases hread : contents.get? rel with
  | none =>
    rw [(h.trees rel).mpr hread] at htree
    split at htree
    . contradiction
    . exact (Option.some.inj htree).symm
  | some old =>
    obtain ⟨id, hid, hne, hhash⟩ := h.hashes rel old hread
    rw [Dict.getD, hid, Option.getD_some, if_pos ⟨hne, by rw [hhash, hsame old hread]⟩] at htree
    contradiction

/-! ## The new tree -/

def declared (kind : SyntaxKind) (text : Text) : Cst :=
  .node .other [] text ⟨0, 0⟩ [.node kind [] text ⟨0, 0⟩ []]

def declaredKind (tree : Cst) : SyntaxKind := (tree.children.map Cst.kind).headD .other

theorem shape_declared_inj {kind kind' : SyntaxKind} {text text' : Text}
    (h : (declared kind text).shape = (declared kind' text').shape)
    : kind = kind' := by
  have hchild : [(kind, ([] : List FieldName), Position.mk 0 0)] = [(kind', [], ⟨0, 0⟩)] :=
    congrArg (fun shape => shape.children.map Rose.label) h
  exact congrArg Prod.fst (List.cons.inj hchild).1

def edited : Cst := .node .other [] [] ⟨1, 0⟩ []

-- A parser that gives another tree for an old one that was not edited
def parseTrusting (text : Text) : Option Cst → Cst
  | none => declared .moduleDeclaration text
  | some old =>
    declared (if old.pos = edited.pos then .moduleDeclaration else .packageDeclaration) text

theorem contract_parseTrusting : Contract parseTrusting fun _ _ _ => edited where
  parse_edit := fun _ _ => rfl

theorem pos_parseTrusting (text : Text) (old : Option Cst)
    : (parseTrusting text old).pos = ⟨0, 0⟩ := by
  cases old <;> rfl

theorem shape_parseTrusting_some_ne {old : Cst} (h : old.pos = ⟨0, 0⟩) (text : Text)
    : (parseTrusting text (some old)).shape ≠ (parseTrusting text none).shape := by
  have hpos : old.pos ≠ edited.pos := by
    rw [h]
    decide
  intro heq
  have hkind := shape_declared_inj heq
  rw [if_neg hpos] at hkind
  contradiction

theorem hashes_eq_of_shape_eq [DecidableEq H] {computeFileHash : Text → H} {files : List FileRead}
    {rounds : List (List FileRead)} {rel content : Text}
    (h : ∀ parse edit, Contract parse edit →
      ∀ tree ∈ extractedTree? parse computeFileHash
          (indexAndUpdate parse computeFileHash files rounds) ⟨rel, some content⟩,
        tree.shape = (parse content none).shape)
    : ∀ old, (contentsOf (files ++ rounds.flatten)).get? rel = some old →
        computeFileHash old = computeFileHash content := by
  intro old hold
  by_contra hchanged
  have hremembers := remembers_indexAndUpdate parseTrusting computeFileHash files rounds
  obtain ⟨tree, htree, hextracted⟩ := hremembers.exists_extractedTree?_eq hold hchanged
  obtain ⟨text, more, hparsed⟩ := hremembers.parsed rel tree htree
  have hpos : tree.pos = ⟨0, 0⟩ := by rw [hparsed, pos_parseTrusting]
  have hshape := h parseTrusting _ contract_parseTrusting _ hextracted
  exact shape_parseTrusting_some_ne hpos content hshape

/--
The contract of the parser is enough for the tree that a file is extracted from to be that of its
new content, also where only what the parser gives is compared, exactly if the file was not read
before or the hash of its content has not changed, so that it is not extracted again.
-/
theorem extractedTree?_right_iff [DecidableEq H] (computeFileHash : Text → H)
    (files : List FileRead) (rounds : List (List FileRead)) (rel content : Text)
    : ((∀ parse edit, Contract parse edit →
          ∀ tree ∈ extractedTree? parse computeFileHash
              (indexAndUpdate parse computeFileHash files rounds) ⟨rel, some content⟩,
            tree = parse content none)
        ↔
        ∀ old, (contentsOf (files ++ rounds.flatten)).get? rel = some old →
          computeFileHash old = computeFileHash content)
      ∧ ((∀ parse edit, Contract parse edit →
          ∀ tree ∈ extractedTree? parse computeFileHash
              (indexAndUpdate parse computeFileHash files rounds) ⟨rel, some content⟩,
            tree.shape = (parse content none).shape)
        ↔
        ∀ old, (contentsOf (files ++ rounds.flatten)).get? rel = some old →
          computeFileHash old = computeFileHash content) := by
  constructor
  . constructor
    . intro h
      apply hashes_eq_of_shape_eq
      intro parse edit hcontract tree htree
      rw [h parse edit hcontract tree htree]
    . intro h parse _ _ tree htree
      exact eq_parse_of_hashes_eq (remembers_indexAndUpdate parse computeFileHash files rounds) h
        htree
  . constructor
    . exact hashes_eq_of_shape_eq
    . intro h parse _ _ tree htree
      rw [eq_parse_of_hashes_eq (remembers_indexAndUpdate parse computeFileHash files rounds) h
        htree]

-- A parser that keeps the nodes of an old tree that was not edited
def parseReusing (text : Text) (old : Option Cst) : Cst :=
  let fresh :=
    if Text.startsWith text "package".toList then .packageDeclaration else .moduleDeclaration
  match old with
  | none => declared fresh text
  | some old => declared (if old.pos = edited.pos then fresh else declaredKind old) text

theorem extractedTree?_stale
    : Contract parseReusing (fun _ _ _ => edited)
        ∧ extractedTree? parseReusing id
            (indexAndUpdate parseReusing id
              [⟨"a.sv".toList, some "module a; endmodule".toList⟩] [])
            ⟨"a.sv".toList, some "package p; endpackage".toList⟩
          = some (declared .moduleDeclaration "package p; endpackage".toList)
        ∧ (declared .moduleDeclaration "package p; endpackage".toList).shape
          ≠ (parseReusing "package p; endpackage".toList none).shape := by
  refine ⟨⟨fun _ _ => rfl⟩, ?_, ?_⟩
  . have hremembers := remembers_indexAndUpdate parseReusing id
      [⟨"a.sv".toList, some "module a; endmodule".toList⟩] []
    have hchanged : id "module a; endmodule".toList ≠ id "package p; endpackage".toList := by decide
    have hold : (contentsOf ([⟨"a.sv".toList, some "module a; endmodule".toList⟩]
          ++ [].flatten)).get? "a.sv".toList
        = some "module a; endmodule".toList := rfl
    obtain ⟨tree, htree, hextracted⟩ := hremembers.exists_extractedTree?_eq hold hchanged
    obtain rfl : declared .moduleDeclaration "module a; endmodule".toList = tree :=
      Option.some.inj htree
    exact hextracted
  . intro h
    have hkind : SyntaxKind.moduleDeclaration = .packageDeclaration := shape_declared_inj h
    contradiction

end IndexedProject
end HdlGraph
