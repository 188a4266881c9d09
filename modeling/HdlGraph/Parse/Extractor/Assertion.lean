import HdlGraph.Parse.Extractor.Outline

/-!
This module contains the extraction of assertions, covergroups, DPI imports, bind directives and
configs.
-/

namespace HdlGraph
namespace GraphExtractor

open ExtractM

def extractNamed (kind : ∀ {ν : Type}, ν → NodeKind ν) (node : Cst) (parentId : NodeId)
    : ExtractM Unit := do
  let name := node.fieldText .name
  if name ≠ [] then
    let nameSym ← intern name
    let _ ← addChild node.pos (kind nameSym) parentId .contains

def namedOutline (kind : ∀ {ν : Type}, ν → NodeKind ν) (node : Cst) : List Outline :=
  let name := node.fieldText .name
  if name ≠ [] then [.leaf node (kind name) .contains] else []

theorem extractNamed_eq (kind : ∀ {ν : Type}, ν → NodeKind ν)
    (hkind : ∀ name : Text, (kind name).mapM intern = intern name >>= fun sym => pure (kind sym))
    (node : Cst) (parentId : NodeId)
    : extractNamed kind node parentId = emitAll parentId (namedOutline kind node) := by
  unfold extractNamed namedOutline
  dsimp only
  split
  . rw [emitAll_singleton]
    simp [Outline.leaf, emit, hkind]
  . rfl

def extractConcurrentAssertionItem (node : Cst) (parentId : NodeId) : ExtractM Unit := do
  let _ ← addChild node.pos .assertProperty parentId .contains

def assertionOutline (node : Cst) : List Outline := [.leaf node .assertProperty .contains]

theorem extractConcurrentAssertionItem_eq (node : Cst) (parentId : NodeId)
    : extractConcurrentAssertionItem node parentId = emitAll parentId (assertionOutline node) :=
  rfl

def extractPropertyDeclaration (node : Cst) (parentId : NodeId) : ExtractM Unit :=
  extractNamed .propertyDecl node parentId

def extractSequenceDeclaration (node : Cst) (parentId : NodeId) : ExtractM Unit :=
  extractNamed .sequenceDecl node parentId

def extractConfigDeclaration (node : Cst) (parentId : NodeId) : ExtractM Unit :=
  extractNamed .configBlock node parentId

def extractCoverPoint (node : Cst) (parentId : NodeId) : ExtractM Unit :=
  extractNamed .coverPoint node parentId

theorem extractPropertyDeclaration_eq (node : Cst) (parentId : NodeId)
    : extractPropertyDeclaration node parentId
        = emitAll parentId (namedOutline .propertyDecl node) :=
  extractNamed_eq .propertyDecl (fun _ => rfl) node parentId

theorem extractSequenceDeclaration_eq (node : Cst) (parentId : NodeId)
    : extractSequenceDeclaration node parentId
        = emitAll parentId (namedOutline .sequenceDecl node) :=
  extractNamed_eq .sequenceDecl (fun _ => rfl) node parentId

theorem extractConfigDeclaration_eq (node : Cst) (parentId : NodeId)
    : extractConfigDeclaration node parentId = emitAll parentId (namedOutline .configBlock node) :=
  extractNamed_eq .configBlock (fun _ => rfl) node parentId

theorem extractCoverPoint_eq (node : Cst) (parentId : NodeId)
    : extractCoverPoint node parentId = emitAll parentId (namedOutline .coverPoint node) :=
  extractNamed_eq .coverPoint (fun _ => rfl) node parentId

def extractCovergroupDeclaration (node : Cst) (parentId : NodeId) : ExtractM Unit := do
  let name := node.fieldText .name
  if name ≠ [] then
    let nameSym ← intern name
    let cgId ← addChild node.pos (.coverGroup nameSym) parentId .contains
    node.children.forM fun child => do
      if child.kind = .coverPoint then
        extractCoverPoint child cgId

def covergroupOutline (node : Cst) : List Outline :=
  let name := node.fieldText .name
  let coverPoints := node.children.flatMap fun child =>
    if child.kind = .coverPoint then namedOutline .coverPoint child else []
  if name ≠ [] then [.node ⟨.coverGroup name, .contains, node.pos⟩ coverPoints] else []

theorem extractCovergroupDeclaration_eq (node : Cst) (parentId : NodeId)
    : extractCovergroupDeclaration node parentId = emitAll parentId (covergroupOutline node) := by
  have hpoints : ∀ cgId : NodeId,
      (node.children.forM fun child =>
        if child.kind = .coverPoint then extractCoverPoint child cgId else pure ())
        =
      emitAll cgId (node.children.flatMap fun child =>
        if child.kind = .coverPoint then namedOutline .coverPoint child else []) := by
    intro cgId
    apply forM_eq_emitAll
    intro child
    split
    . apply extractCoverPoint_eq
    . rfl
  unfold extractCovergroupDeclaration covergroupOutline
  dsimp only
  split
  . simp only [hpoints]
    rw [emitAll_singleton]
    simp [emit, NodeKind.mapM]
  . rfl

def dpiProtoName (child : Cst) : Option Text :=
  match child.kind with
  | .dpiFunctionProto | .dpiTaskProto =>
    child.children.findSome? fun proto => (proto.childByFieldName .name).map Cst.text
  | _ => none

def dpiName (node : Cst) : Text :=
  let funcName := node.fieldText .name
  if funcName = [] then Cst.lastOf [] dpiProtoName node.children else funcName

def extractDpiImport (node : Cst) (parentId : NodeId) : ExtractM Unit := do
  let funcName := dpiName node
  if funcName ≠ [] then
    let nameSym ← intern funcName
    let _ ← addChild node.pos (.dpiImport nameSym) parentId .contains

def dpiOutline (node : Cst) : List Outline :=
  let funcName := dpiName node
  if funcName ≠ [] then [.leaf node (.dpiImport funcName) .contains] else []

theorem extractDpiImport_eq (node : Cst) (parentId : NodeId)
    : extractDpiImport node parentId = emitAll parentId (dpiOutline node) := by
  unfold extractDpiImport dpiOutline
  dsimp only
  split <;> rfl

def boundType (child : Cst) : Option Text :=
  match child.kind with
  | .moduleInstantiation | .interfaceInstantiation | .programInstantiation =>
    (child.childByFieldName .instanceType).map Cst.text
  | _ => none

def extractBindDirective (node : Cst) (parentId : NodeId) : ExtractM Unit := do
  let moduleType := Cst.lastOf [] boundType node.children
  if moduleType ≠ [] then
    let typeSym ← intern moduleType
    let _ ← addChild node.pos (.bindDirective typeSym) parentId .contains

def bindOutline (node : Cst) : List Outline :=
  let moduleType := Cst.lastOf [] boundType node.children
  if moduleType ≠ [] then [.leaf node (.bindDirective moduleType) .contains] else []

theorem extractBindDirective_eq (node : Cst) (parentId : NodeId)
    : extractBindDirective node parentId = emitAll parentId (bindOutline node) := by
  unfold extractBindDirective bindOutline
  dsimp only
  split <;> rfl

end GraphExtractor
end HdlGraph
