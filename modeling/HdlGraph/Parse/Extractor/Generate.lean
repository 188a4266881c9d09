import HdlGraph.Parse.Extractor.Declarations
import HdlGraph.Parse.Extractor.Assertion

/-!
This module contains the extraction of generate constructs. The loops of `extract_generate_region`
and `extract_generate_block` over the items are `extractGenerateItems`, with the body of
`extract_generate_item` in it.
-/

namespace HdlGraph
namespace GraphExtractor

open ExtractM

mutual

def extractGenerateFor (node : Cst) (parentId : NodeId) : ExtractM Unit :=
  match node with
  | .node _ _ _ pos children => do
    let genId ← addChild pos (.generateBlock .for) parentId .contains
    extractGenerateBlocks children genId

def extractGenerateIf (node : Cst) (parentId : NodeId) : ExtractM Unit :=
  match node with
  | .node _ _ _ _ children => extractGenerateConditions children parentId

def extractGenerateRegion (node : Cst) (parentId : NodeId) : ExtractM Unit :=
  match node with
  | .node _ _ _ pos children => do
    let genId ← addChild pos (.generateBlock .loop) parentId .contains
    extractGenerateItems children genId

def extractIfGenerate (node : Cst) (parentId : NodeId) : ExtractM Unit :=
  match node with
  | .node _ _ _ _ children => extractIfBranches children parentId

def extractCaseGenerate (node : Cst) (parentId : NodeId) : ExtractM Unit :=
  match node with
  | .node _ _ _ _ children => extractCaseItems children parentId

def extractGenerateBlock (node : Cst) (parentId : NodeId) : ExtractM Unit :=
  match node with
  | .node _ _ _ _ children => extractGenerateItems children parentId

def extractGenerateBlocks (children : List Cst) (genId : NodeId) : ExtractM Unit :=
  match children with
  | [] => return ()
  | child :: rest => do
    if child.kind = .generateBlock then
      extractGenerateBlock child genId
    extractGenerateBlocks rest genId

def extractGenerateConditions (children : List Cst) (parentId : NodeId) : ExtractM Unit :=
  match children with
  | [] => return ()
  | child :: rest => do
    match child.kind with
    | .ifGenerateConstruct => extractIfGenerate child parentId
    | .caseGenerateConstruct => extractCaseGenerate child parentId
    | _ => pure ()
    extractGenerateConditions rest parentId

def extractIfBranches (children : List Cst) (parentId : NodeId) : ExtractM Unit :=
  match children with
  | [] => return ()
  | child :: rest => do
    if child.kind = .generateBlock then
      let branchId ← addChild child.pos (.generateBlock .if) parentId .contains
      extractGenerateBlock child branchId
    extractIfBranches rest parentId

def extractCaseItems (children : List Cst) (parentId : NodeId) : ExtractM Unit :=
  match children with
  | [] => return ()
  | .node kind _ _ pos itemChildren :: rest => do
    if kind = .caseGenerateItem then
      let branchId ← addChild pos (.generateBlock .case) parentId .contains
      extractGenerateBlocks itemChildren branchId
    extractCaseItems rest parentId

def extractGenerateItems (children : List Cst) (parentId : NodeId) : ExtractM Unit :=
  match children with
  | [] => return ()
  | child :: rest => do
    match child.kind with
    | .loopGenerateConstruct => extractGenerateFor child parentId
    | .conditionalGenerateConstruct => extractGenerateIf child parentId
    | .generateRegion => extractGenerateRegion child parentId
    | .moduleInstantiation | .udpInstantiation | .gateInstantiation | .interfaceInstantiation =>
      extractInstance child parentId
    | .netDeclaration | .dataDeclaration => extractSignal child parentId
    | .alwaysConstruct => extractAlways child parentId
    | .continuousAssign => extractContinuousAssign child parentId
    | .concurrentAssertionItem => extractConcurrentAssertionItem child parentId
    | .covergroupDeclaration => extractCovergroupDeclaration child parentId
    | .propertyDeclaration => extractPropertyDeclaration child parentId
    | .sequenceDeclaration => extractSequenceDeclaration child parentId
    -- DPI and bind; functions and tasks are left for later
    | .dpiImportExport => extractDpiImport child parentId
    | .bindDirective => extractBindDirective child parentId
    | _ => pure ()
    extractGenerateItems rest parentId

end

mutual

def generateForOutline : Cst → List Outline
  | .node _ _ _ pos children =>
    [.node ⟨.generateBlock .for, .contains, pos⟩ (generateBlocksOutline children)]

def generateIfOutline : Cst → List Outline
  | .node _ _ _ _ children => generateConditionsOutline children

def generateRegionOutline : Cst → List Outline
  | .node _ _ _ pos children =>
    [.node ⟨.generateBlock .loop, .contains, pos⟩ (generateItemsOutline children)]

def ifGenerateOutline : Cst → List Outline
  | .node _ _ _ _ children => ifBranchesOutline children

def caseGenerateOutline : Cst → List Outline
  | .node _ _ _ _ children => caseItemsOutline children

def generateBlockOutline : Cst → List Outline
  | .node _ _ _ _ children => generateItemsOutline children

def generateBlocksOutline : List Cst → List Outline
  | [] => []
  | child :: rest =>
    (if child.kind = .generateBlock then generateBlockOutline child else [])
    ++ generateBlocksOutline rest

def generateConditionsOutline : List Cst → List Outline
  | [] => []
  | child :: rest =>
    (match child.kind with
    | .ifGenerateConstruct => ifGenerateOutline child
    | .caseGenerateConstruct => caseGenerateOutline child
    | _ => [])
      ++ generateConditionsOutline rest

def ifBranchesOutline : List Cst → List Outline
  | [] => []
  | child :: rest =>
    (if child.kind = .generateBlock then
      [.node ⟨.generateBlock .if, .contains, child.pos⟩ (generateBlockOutline child)]
    else [])
      ++ ifBranchesOutline rest

def caseItemsOutline : List Cst → List Outline
  | [] => []
  | .node kind _ _ pos itemChildren :: rest =>
    (if kind = .caseGenerateItem then
      [.node ⟨.generateBlock .case, .contains, pos⟩ (generateBlocksOutline itemChildren)]
    else [])
      ++ caseItemsOutline rest

def generateItemsOutline : List Cst → List Outline
  | [] => []
  | child :: rest =>
    (match child.kind with
    | .loopGenerateConstruct => generateForOutline child
    | .conditionalGenerateConstruct => generateIfOutline child
    | .generateRegion => generateRegionOutline child
    | .moduleInstantiation | .udpInstantiation | .gateInstantiation | .interfaceInstantiation =>
      instanceOutline child
    | .netDeclaration | .dataDeclaration => signalOutline child
    | .alwaysConstruct => alwaysOutline child
    | .continuousAssign => assignOutline child
    | .concurrentAssertionItem => assertionOutline child
    | .covergroupDeclaration => covergroupOutline child
    | .propertyDeclaration => namedOutline .propertyDecl child
    | .sequenceDeclaration => namedOutline .sequenceDecl child
    | .dpiImportExport => dpiOutline child
    | .bindDirective => bindOutline child
    | _ => [])
      ++ generateItemsOutline rest

end

theorem addGenerateBlock_eq (kind : GenerateKind) (pos : Position) (parentId : NodeId)
    (body : NodeId → ExtractM Unit) (children : List Outline)
    (hbody : ∀ id, body id = emitAll id children)
    : (addChild pos (.generateBlock kind) parentId .contains >>= body)
        =
      emitAll parentId [.node ⟨.generateBlock kind, .contains, pos⟩ children] := by
  rw [funext hbody, emitAll_singleton]
  simp [emit, NodeKind.mapM]

mutual

theorem extractGenerateFor_eq (parentId : NodeId)
    : (node : Cst) → extractGenerateFor node parentId = emitAll parentId (generateForOutline node)
  | .node _ _ _ _ children => by
    simp only [extractGenerateFor, generateForOutline]
    apply addGenerateBlock_eq
    intro id
    apply extractGenerateBlocks_eq

theorem extractGenerateIf_eq (parentId : NodeId)
    : (node : Cst) → extractGenerateIf node parentId = emitAll parentId (generateIfOutline node)
  | .node _ _ _ _ children => by
    simp only [extractGenerateIf, generateIfOutline]
    apply extractGenerateConditions_eq

theorem extractGenerateRegion_eq (parentId : NodeId)
    : (node : Cst) →
        extractGenerateRegion node parentId = emitAll parentId (generateRegionOutline node)
  | .node _ _ _ _ children => by
    simp only [extractGenerateRegion, generateRegionOutline]
    apply addGenerateBlock_eq
    intro id
    apply extractGenerateItems_eq

theorem extractIfGenerate_eq (parentId : NodeId)
    : (node : Cst) → extractIfGenerate node parentId = emitAll parentId (ifGenerateOutline node)
  | .node _ _ _ _ children => by
    simp only [extractIfGenerate, ifGenerateOutline]
    apply extractIfBranches_eq

theorem extractCaseGenerate_eq (parentId : NodeId)
    : (node : Cst) → extractCaseGenerate node parentId = emitAll parentId (caseGenerateOutline node)
  | .node _ _ _ _ children => by
    simp only [extractCaseGenerate, caseGenerateOutline]
    apply extractCaseItems_eq

theorem extractGenerateBlock_eq (parentId : NodeId)
    : (node : Cst) →
        extractGenerateBlock node parentId = emitAll parentId (generateBlockOutline node)
  | .node _ _ _ _ children => by
    simp only [extractGenerateBlock, generateBlockOutline]
    apply extractGenerateItems_eq

theorem extractGenerateBlocks_eq (genId : NodeId)
    : (children : List Cst) →
        extractGenerateBlocks children genId = emitAll genId (generateBlocksOutline children)
  | [] => by simp only [extractGenerateBlocks, generateBlocksOutline, emitAll_nil]
  | child :: rest => by
    rw [extractGenerateBlocks, generateBlocksOutline, emitAll_append, extractGenerateBlocks_eq]
    split
    . rw [extractGenerateBlock_eq]
    . rfl

theorem extractGenerateConditions_eq (parentId : NodeId)
    : (children : List Cst) →
      extractGenerateConditions children parentId
        = emitAll parentId (generateConditionsOutline children)
  | [] => by simp only [extractGenerateConditions, generateConditionsOutline, emitAll_nil]
  | child :: rest => by
    rw [extractGenerateConditions, generateConditionsOutline, emitAll_append,
      extractGenerateConditions_eq]
    split
    . rw [extractIfGenerate_eq]
    . rw [extractCaseGenerate_eq]
    . rfl

theorem extractIfBranches_eq (parentId : NodeId)
    : (children : List Cst) →
        extractIfBranches children parentId = emitAll parentId (ifBranchesOutline children)
  | [] => by simp only [extractIfBranches, ifBranchesOutline, emitAll_nil]
  | child :: rest => by
    have hblock :=
      addGenerateBlock_eq .if child.pos parentId _ _ fun id => extractGenerateBlock_eq id child
    rw [extractIfBranches, ifBranchesOutline, emitAll_append, extractIfBranches_eq]
    split
    . rw [← hblock, bind_assoc]
    . rfl

theorem extractCaseItems_eq (parentId : NodeId)
    : (children : List Cst) →
        extractCaseItems children parentId = emitAll parentId (caseItemsOutline children)
  | [] => by simp only [extractCaseItems, caseItemsOutline, emitAll_nil]
  | .node kind _ _ pos itemChildren :: rest => by
    have hblock :=
      addGenerateBlock_eq .case pos parentId _ _ fun id => extractGenerateBlocks_eq id itemChildren
    rw [extractCaseItems, caseItemsOutline, emitAll_append, extractCaseItems_eq]
    split
    . rw [← hblock, bind_assoc]
    . rfl

theorem extractGenerateItems_eq (parentId : NodeId)
    : (children : List Cst) →
      extractGenerateItems children parentId = emitAll parentId (generateItemsOutline children)
  | [] => by simp only [extractGenerateItems, generateItemsOutline, emitAll_nil]
  | child :: rest => by
    rw [extractGenerateItems, generateItemsOutline, emitAll_append, extractGenerateItems_eq]
    split
    . rw [extractGenerateFor_eq]
    . rw [extractGenerateIf_eq]
    . rw [extractGenerateRegion_eq]
    . rw [extractInstance_eq]
    . rw [extractInstance_eq]
    . rw [extractInstance_eq]
    . rw [extractInstance_eq]
    . rw [extractSignal_eq]
    . rw [extractSignal_eq]
    . rw [extractAlways_eq]
    . rw [extractContinuousAssign_eq]
    . rw [extractConcurrentAssertionItem_eq]
    . rw [extractCovergroupDeclaration_eq]
    . rw [extractPropertyDeclaration_eq]
    . rw [extractSequenceDeclaration_eq]
    . rw [extractDpiImport_eq]
    . rw [extractBindDirective_eq]
    . rfl

end

end GraphExtractor
end HdlGraph
