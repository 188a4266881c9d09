import HdlGraph.Parse.Extractor.Module

/-!
This module contains the extraction of a whole file and its specification: the nodes and the edges
that `extract` returns are the numbered outline of the file, from the extractor's counter on.
-/

namespace HdlGraph

/-! ## The code -/

namespace GraphExtractor

open ExtractM

def extractRootChild (child : Cst) (rootId : NodeId) : ExtractM Unit :=
  match child.kind with
  | .moduleDeclaration => do
    match ← extractModule child with
    | some modId => pushEdge rootId modId .contains
    | none => return ()
  | .configDeclaration => extractConfigDeclaration child rootId
  | .bindDirective => extractBindDirective child rootId
  | .packageDeclaration => do let _ ← extractPackage child rootId
  | .interfaceDeclaration => do let _ ← extractInterface child rootId
  | .classDeclaration => do
    match ← extractClass child rootId with
    | some clsId => pushEdge rootId clsId .contains
    | none => return ()
  | _ => return ()

def extractRoot (tree : Cst) : ExtractM Unit := do
  let rootId ← ExtractM.nextId
  pushNode tree.pos rootId .sourceFile
  tree.children.forM fun child => extractRootChild child rootId

def extract (ex : GraphExtractor) (tree : Cst) (fileId : Nat)
    : (List GraphNode × List Edge) × GraphExtractor :=
  let start : ExtractState := ⟨{ ex with currentFileId := fileId % 2 ^ 32 }, [], []⟩
  let final := (extractRoot tree start).2
  ((final.nodes, final.edges), final.extractor)

end GraphExtractor

/-! ## Outlines of files -/

inductive TopItem where
  | declared (o : Outline)
  | module (name : Text) (pos : Position) (items : List Outline)
  | class (o : Outline)

namespace TopItem

open ExtractM

def outline : TopItem → Outline
  | declared o => o
  | module name pos items => .node ⟨.module name, .contains, pos⟩ items
  | .class o => o

-- How many ids an item takes. A module takes one for itself whether it has a name or not.
def size (item : TopItem) : Nat := item.outline.size

def nodesAt (root b : NodeId) : TopItem → List NamedNode
  | declared o => nodesOf (o.place root b)
  | module name pos items =>
    nodesOf (Rose.placeAll b (b + 1) items)
      ++ if name = [] then [] else [(Declared.mk (.module name) .contains pos).namedNode b]
  | .class o => nodesOf (o.place root b)

def edgesAt (root b : NodeId) : TopItem → List Edge
  | declared o => edgesOf (o.place root b)
  | module name _ items =>
    edgesOf (Rose.placeAll b (b + 1) items) ++ if name = [] then [] else [⟨root, b, .contains⟩]
  | .class o => edgesOf (o.place root b) ++ [⟨root, b, .contains⟩]

def sizeAll : List TopItem → Nat
  | [] => 0
  | item :: items => item.size + sizeAll items

def nodesAllAt (root b : NodeId) : List TopItem → List NamedNode
  | [] => []
  | item :: items => item.nodesAt root b ++ nodesAllAt root (b + item.size) items

def edgesAllAt (root b : NodeId) : List TopItem → List Edge
  | [] => []
  | item :: items => item.edgesAt root b ++ edgesAllAt root (b + item.size) items

@[simp]
theorem sizeAll_nil : sizeAll [] = 0 := rfl

@[simp]
theorem sizeAll_cons (item : TopItem) (items : List TopItem)
    : sizeAll (item :: items) = item.size + sizeAll items := rfl

@[simp]
theorem sizeAll_append (items items' : List TopItem)
    : sizeAll (items ++ items') = sizeAll items + sizeAll items' := by
  induction items with
  | nil => simp [sizeAll]
  | cons item items ih => rw [List.cons_append, sizeAll_cons, sizeAll_cons, ih, Nat.add_assoc]

theorem nodesAllAt_append (root b : NodeId) (items items' : List TopItem)
    : nodesAllAt root b (items ++ items')
        =
      nodesAllAt root b items ++ nodesAllAt root (b + sizeAll items) items' := by
  induction items generalizing b with
  | nil => simp [nodesAllAt]
  | cons item items ih => simp [nodesAllAt, ih, Nat.add_assoc]

theorem edgesAllAt_append (root b : NodeId) (items items' : List TopItem)
    : edgesAllAt root b (items ++ items')
        =
      edgesAllAt root b items ++ edgesAllAt root (b + sizeAll items) items' := by
  induction items generalizing b with
  | nil => simp [edgesAllAt]
  | cons item items ih => simp [edgesAllAt, ih, Nat.add_assoc]

end TopItem

structure FileOutline where
  pos : Position
  items : List TopItem

namespace FileOutline

def size (file : FileOutline) : Nat := 1 + TopItem.sizeAll file.items

def rootNode (b : NodeId) (file : FileOutline) : NamedNode where
  id := b
  kind := .sourceFile
  line := file.pos.row + 1
  col := file.pos.col

def nodesAt (b : NodeId) (file : FileOutline) : List NamedNode :=
  file.rootNode b :: TopItem.nodesAllAt b (b + 1) file.items

def edgesAt (b : NodeId) (file : FileOutline) : List Edge := TopItem.edgesAllAt b (b + 1) file.items

end FileOutline

namespace GraphExtractor

def topItems (child : Cst) : List TopItem :=
  match child.kind with
  | .moduleDeclaration => [.module (moduleName child) child.pos (moduleItemsOutline child)]
  | .configDeclaration => (namedOutline .configBlock child).map .declared
  | .bindDirective => (bindOutline child).map .declared
  | .packageDeclaration => (packageOutline child).toList.map .declared
  | .interfaceDeclaration => (interfaceOutline child).toList.map .declared
  | .classDeclaration => (classOutline child).toList.map .class
  | _ => []

def fileOutline (tree : Cst) : FileOutline where
  pos := tree.pos
  items := tree.children.flatMap topItems

/-! ## The specification of `extract` -/

open ExtractM

theorem nextId_grows (s : ExtractState) : Grows s (ExtractM.nextId s).2 1 [] [] where
  nextId := rfl
  fileId := rfl
  symbols := .refl _
  edges := (List.append_nil _).symm
  nodes := ⟨[], by simp [ExtractM.nextId]⟩

theorem pushEdge_grows (source target : NodeId) (edgeType : EdgeType) (s : ExtractState)
    : Grows s (pushEdge source target edgeType s).2 0 [] [⟨source, target, edgeType⟩] where
  nextId := rfl
  fileId := rfl
  symbols := .refl _
  edges := rfl
  nodes := ⟨[], by simp [pushEdge]⟩

theorem pushNode_grows (d : Declared) (id : NodeId) (kind : NodeKind InternedString)
    (s : ExtractState) (hkind : kind.resolve s.extractor.symbols = some d.kind)
    : Grows s (pushNode d.pos id kind s).2 0 [d.namedNode id] [] where
  nextId := rfl
  fileId := rfl
  symbols := .refl _
  edges := (List.append_nil _).symm
  nodes := by
    refine ⟨[makeNode s.extractor.currentFileId d.pos id kind], rfl, ?_⟩
    change [GraphNode.named s.extractor.symbols _] = [some _]
    simp only [GraphNode.named, makeNode, hkind]
    rfl

def GrowsItems (s s' : ExtractState) (rootId : NodeId) (items : List TopItem) : Prop :=
  Grows s s' (TopItem.sizeAll items)
    (TopItem.nodesAllAt rootId s.extractor.nextId items)
    (TopItem.edgesAllAt rootId s.extractor.nextId items)

theorem GrowsItems.refl (s : ExtractState) (rootId : NodeId)
    : GrowsItems s s rootId [] := Grows.refl s

theorem GrowsItems.trans {s₁ s₂ s₃ : ExtractState} {rootId : NodeId} {items items' : List TopItem}
    (h₁ : GrowsItems s₁ s₂ rootId items) (h₂ : GrowsItems s₂ s₃ rootId items')
    : GrowsItems s₁ s₃ rootId (items ++ items') := by
  unfold GrowsItems at *
  rw [h₁.nextId] at h₂
  rw [TopItem.sizeAll_append, TopItem.nodesAllAt_append, TopItem.edgesAllAt_append]
  exact Grows.trans h₁ h₂

theorem GrowsItems.singleton {s s' : ExtractState} {rootId : NodeId} {item : TopItem}
    (h : Grows s s' item.size (item.nodesAt rootId s.extractor.nextId)
      (item.edgesAt rootId s.extractor.nextId))
    : GrowsItems s s' rootId [item] := by
  unfold GrowsItems
  simpa [TopItem.nodesAllAt, TopItem.edgesAllAt] using h

theorem emitAll_growsItems (rootId : NodeId) (os : List Outline) (s : ExtractState)
    : GrowsItems s (emitAll rootId os s).2 rootId (os.map .declared) := by
  induction os generalizing s with
  | nil =>
    rw [emitAll_nil]
    exact GrowsItems.refl s rootId
  | cons o os ih =>
    have hfirst : GrowsItems s (emit rootId o s).2 rootId [.declared o] :=
      GrowsItems.singleton (emit_grows rootId o s).2
    rw [emitAll_cons]
    exact hfirst.trans (ih (emit rootId o s).2)

theorem extractTopClass_growsItems (child : Cst) (rootId : NodeId) (s : ExtractState)
    : GrowsItems s
        ((do match ← extractClass child rootId with
            | some clsId => pushEdge rootId clsId .contains
            | none => return ()) s).2
        rootId ((classOutline child).toList.map .class) := by
  rw [extractClass_eq]
  cases classOutline child with
  | none => exact GrowsItems.refl s rootId
  | some o =>
    have ⟨hid, hemit⟩ := emit_grows rootId o s
    have hedge := pushEdge_grows rootId s.extractor.nextId .contains (emit rootId o s).2
    have hboth := hemit.trans hedge
    rw [List.append_nil] at hboth
    apply GrowsItems.singleton
    simp only [emitOption, bind_apply, pure_apply, hid]
    exact hboth

theorem extractTopModule_growsItems (child : Cst) (rootId : NodeId) (s : ExtractState)
    : GrowsItems s
        ((do match ← extractModule child with
            | some modId => pushEdge rootId modId .contains
            | none => return ()) s).2
        rootId [.module (moduleName child) child.pos (moduleItemsOutline child)] := by
  have hid := nextId_grows s
  have hitems :=
    emitAll_grows (ExtractM.nextId s).1 (moduleItemsOutline child) (ExtractM.nextId s).2
  rw [hid.nextId] at hitems
  have hbody := hid.trans hitems
  apply GrowsItems.singleton
  rw [extractModule_eq]
  simp only [TopItem.size, TopItem.outline, Rose.size, TopItem.nodesAt, TopItem.edgesAt]
  split
  . rw [List.append_nil, List.append_nil]
    exact hbody
  . have hname := intern_grows (moduleName child)
      (emitAll (ExtractM.nextId s).1 (moduleItemsOutline child) (ExtractM.nextId s).2).2
    have hnode :=
      pushNode_grows ⟨.module (moduleName child), .contains, child.pos⟩ (ExtractM.nextId s).1 _ _
      (mapM_intern (.module (moduleName child))
        (emitAll (ExtractM.nextId s).1 (moduleItemsOutline child) (ExtractM.nextId s).2).2).2
    have hmodule :=
      ((hbody.trans hname).trans hnode).trans
        (pushEdge_grows rootId (ExtractM.nextId s).1 .contains _)
    simp only [List.nil_append, List.append_nil, Nat.add_zero] at hmodule
    exact hmodule

theorem extractRootChild_growsItems (child : Cst) (rootId : NodeId) (s : ExtractState)
    : GrowsItems s (extractRootChild child rootId s).2 rootId (topItems child) := by
  unfold extractRootChild topItems
  generalize child.kind = kind
  split
  . apply extractTopModule_growsItems
  . rw [extractConfigDeclaration_eq]
    apply emitAll_growsItems
  . rw [extractBindDirective_eq]
    apply emitAll_growsItems
  . rw [discard_emitOption rootId (extractPackage_eq child rootId)]
    apply emitAll_growsItems
  . rw [discard_emitOption rootId (extractInterface_eq child rootId)]
    apply emitAll_growsItems
  . apply extractTopClass_growsItems
  . exact GrowsItems.refl s rootId

theorem forM_extractRootChild_growsItems (children : List Cst) (rootId : NodeId) (s : ExtractState)
    : GrowsItems s ((children.forM fun child => extractRootChild child rootId) s).2 rootId
        (children.flatMap topItems) := by
  induction children generalizing s with
  | nil => exact GrowsItems.refl s rootId
  | cons child children ih =>
    rw [List.forM, List.flatMap_cons]
    exact (extractRootChild_growsItems child rootId s).trans (ih _)

/--
What `extract` returns for a tree: the nodes and the edges of its outline, numbered from the counter
of the extractor. The names of the nodes are to be read in the symbol table it leaves behind.
-/
structure Extracts (ex : GraphExtractor) (file : FileOutline)
    (result : (List GraphNode × List Edge) × GraphExtractor) : Prop where
  nodes : result.1.1.map (·.named result.2.symbols) = (file.nodesAt ex.nextId).map some
  edges : result.1.2 = file.edgesAt ex.nextId
  nextId : result.2.nextId = ex.nextId + file.size
  symbols : ex.symbols.Extends result.2.symbols

theorem extract_extracts (ex : GraphExtractor) (tree : Cst) (fileId : Nat)
    : Extracts ex (fileOutline tree) (ex.extract tree fileId) := by
  let start : ExtractState := ⟨{ ex with currentFileId := fileId % 2 ^ 32 }, [], []⟩
  have hgrows : Grows start (extractRoot tree start).2 (fileOutline tree).size
      ((fileOutline tree).nodesAt ex.nextId) ((fileOutline tree).edgesAt ex.nextId) := by
    have hid := nextId_grows start
    have hroot := pushNode_grows ⟨.sourceFile, .contains, tree.pos⟩ ex.nextId .sourceFile
      (ExtractM.nextId start).2 rfl
    have hitems := forM_extractRootChild_growsItems tree.children ex.nextId
      (pushNode tree.pos ex.nextId .sourceFile (ExtractM.nextId start).2).2
    exact (hid.trans hroot).trans hitems
  have ⟨added, hadded, hnamed⟩ := hgrows.nodes
  rw [show start.nodes = [] from rfl, List.nil_append] at hadded
  exact {
    nodes := by
      rw [← hnamed, ← hadded]
      rfl
    edges := hgrows.edges
    nextId := hgrows.nextId
    symbols := hgrows.symbols
  }

end GraphExtractor
end HdlGraph
