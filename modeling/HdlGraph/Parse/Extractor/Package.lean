import HdlGraph.Parse.Extractor.Class

/-!
This module contains the extraction of packages and interfaces.
-/

namespace HdlGraph
namespace GraphExtractor

open ExtractM Text

/-! ## Packages -/

def addPackageImport (node : Cst) (sourcePath : Text) (pkgId : NodeId) : ExtractM Unit := do
  let srcSym ← intern sourcePath
  let _ ← addChild node.pos (.packageImport srcSym) pkgId .contains

def extractPackageImport (node : Cst) (pkgId : NodeId) : ExtractM Unit :=
  node.children.forM fun child => do
    if child.kind = .packageImportItem ∧ child.text ≠ [] then
      addPackageImport child child.text pkgId

def packageImportOutline (node : Cst) : List Outline :=
  node.children.flatMap fun child =>
    if child.kind = .packageImportItem ∧ child.text ≠ [] then
      [.leaf child (.packageImport child.text) .contains] else []

theorem extractPackageImport_eq (node : Cst) (pkgId : NodeId)
    : extractPackageImport node pkgId = emitAll pkgId (packageImportOutline node) := by
  unfold extractPackageImport packageImportOutline
  apply forM_eq_emitAll
  intro child
  split <;> rfl

def extractPackageExport (node : Cst) (pkgId : NodeId) : ExtractM Unit :=
  node.children.forM fun child =>
    match child.kind with
    | .packageImportItem =>
      if child.text ≠ [] then addPackageImport child child.text pkgId else return ()
    | _ =>
      if child.text = "*::*".toList then addPackageImport child "*::*".toList pkgId else return ()

def packageExportOutline (node : Cst) : List Outline :=
  node.children.flatMap fun child =>
    match child.kind with
    | .packageImportItem =>
      if child.text ≠ [] then [.leaf child (.packageImport child.text) .contains] else []
    | _ =>
      if child.text = "*::*".toList then [.leaf child (.packageImport "*::*".toList) .contains]
        else []

theorem extractPackageExport_eq (node : Cst) (pkgId : NodeId)
    : extractPackageExport node pkgId = emitAll pkgId (packageExportOutline node) := by
  unfold extractPackageExport packageExportOutline
  apply forM_eq_emitAll
  intro child
  split
  . split <;> rfl
  . split <;> rfl

def extractPackageItem (node : Cst) (pkgId : NodeId) : ExtractM Unit :=
  node.children.forM fun child =>
    match child.kind with
    | .packageImportDeclaration => extractPackageImport child pkgId
    | .packageExportDeclaration => extractPackageExport child pkgId
    | _ => return ()

def packageItemOutline (node : Cst) : List Outline :=
  node.children.flatMap fun child =>
    match child.kind with
    | .packageImportDeclaration => packageImportOutline child
    | .packageExportDeclaration => packageExportOutline child
    | _ => []

theorem extractPackageItem_eq (node : Cst) (pkgId : NodeId)
    : extractPackageItem node pkgId = emitAll pkgId (packageItemOutline node) := by
  unfold extractPackageItem packageItemOutline
  apply forM_eq_emitAll
  intro child
  split
  . apply extractPackageImport_eq
  . apply extractPackageExport_eq
  . rfl

def extractPackage (node : Cst) (scopeId : NodeId) : ExtractM (Option NodeId) := do
  let pkgName := node.fieldText .name
  if pkgName = [] then
    pure none
  else
    let nameSym ← intern pkgName
    let pkgId ← addChild node.pos (.package nameSym) scopeId .contains
    node.children.forM fun child => do
      if child.kind = .packageItem then
        extractPackageItem child pkgId
    pure (some pkgId)

def packageOutline (node : Cst) : Option Outline :=
  let pkgName := node.fieldText .name
  if pkgName = [] then
    none
  else
    let items := node.children.flatMap fun child =>
      if child.kind = .packageItem then packageItemOutline child else []
    some (.node ⟨.package pkgName, .contains, node.pos⟩ items)

theorem extractPackage_eq (node : Cst) (scopeId : NodeId)
    : extractPackage node scopeId = emitOption scopeId (packageOutline node) := by
  have hitems : ∀ pkgId : NodeId,
      (node.children.forM fun child =>
        if child.kind = .packageItem then extractPackageItem child pkgId else pure ())
        =
      emitAll pkgId (node.children.flatMap fun child =>
        if child.kind = .packageItem then packageItemOutline child else []) := by
    intro pkgId
    apply forM_eq_emitAll
    intro child
    split
    . apply extractPackageItem_eq
    . rfl
  unfold extractPackage packageOutline
  dsimp only
  split
  . rfl
  . simp only [hitems]
    simp [emitOption, emit, NodeKind.mapM]

/-! ## Interfaces -/

def interfaceHeaderName (child : Cst) : Option Text :=
  match child.kind with
  | .interfaceNonansiHeader | .interfaceAnsiHeader => (child.childByFieldName .name).map Cst.text
  | _ => none

def interfaceName (node : Cst) : Text :=
  match node.childByFieldName .name with
  | some nameNode => nameNode.text
  | none => Cst.lastOf [] interfaceHeaderName node.children

def modportName (child : Cst) : Text := trim (child.text.takeWhile (· ≠ '('))

def extractModport (node : Cst) (ifaceId : NodeId) : ExtractM Unit :=
  node.children.forM fun child => do
    if child.kind = .modportItem then
      let cleanName := modportName child
      if cleanName ≠ [] then
        let nameSym ← intern cleanName
        let _ ← addChild child.pos (.modport nameSym) ifaceId .contains

def modportOutline (node : Cst) : List Outline :=
  node.children.flatMap fun child =>
    if child.kind = .modportItem then
      if modportName child ≠ [] then [.leaf child (.modport (modportName child)) .contains] else []
    else []

theorem extractModport_eq (node : Cst) (ifaceId : NodeId)
    : extractModport node ifaceId = emitAll ifaceId (modportOutline node) := by
  unfold extractModport modportOutline
  apply forM_eq_emitAll
  intro child
  dsimp only
  split
  . split <;> rfl
  . rfl

-- There is no node kind for clocking blocks; a signal stands for them
def extractClocking (node : Cst) (ifaceId : NodeId) : ExtractM Unit := do
  let clockingName := node.fieldText .name
  if clockingName ≠ [] then
    let nameSym ← intern clockingName
    let _ ← addChild node.pos (.signalDecl nameSym .logic) ifaceId .contains

def clockingOutline (node : Cst) : List Outline :=
  let clockingName := node.fieldText .name
  if clockingName ≠ [] then [.leaf node (.signalDecl clockingName .logic) .contains] else []

theorem extractClocking_eq (node : Cst) (ifaceId : NodeId)
    : extractClocking node ifaceId = emitAll ifaceId (clockingOutline node) := by
  unfold extractClocking clockingOutline
  dsimp only
  split <;> rfl

def extractInterfaceItem (node : Cst) (ifaceId : NodeId) : ExtractM Unit :=
  node.children.forM fun child =>
    match child.kind with
    | .modportDeclaration => extractModport child ifaceId
    | .clockingDeclaration => extractClocking child ifaceId
    | _ => return ()

def interfaceItemOutline (node : Cst) : List Outline :=
  node.children.flatMap fun child =>
    match child.kind with
    | .modportDeclaration => modportOutline child
    | .clockingDeclaration => clockingOutline child
    | _ => []

theorem extractInterfaceItem_eq (node : Cst) (ifaceId : NodeId)
    : extractInterfaceItem node ifaceId = emitAll ifaceId (interfaceItemOutline node) := by
  unfold extractInterfaceItem interfaceItemOutline
  apply forM_eq_emitAll
  intro child
  split
  . apply extractModport_eq
  . apply extractClocking_eq
  . rfl

def extractInterfaceChild (child : Cst) (ifaceId : NodeId) : ExtractM Unit :=
  match child.kind with
  | .interfaceItem => extractInterfaceItem child ifaceId
  | .modportDeclaration => extractModport child ifaceId
  | .clockingDeclaration => extractClocking child ifaceId
  | _ => return ()

def interfaceChildOutline (child : Cst) : List Outline :=
  match child.kind with
  | .interfaceItem => interfaceItemOutline child
  | .modportDeclaration => modportOutline child
  | .clockingDeclaration => clockingOutline child
  | _ => []

theorem extractInterfaceChild_eq (child : Cst) (ifaceId : NodeId)
    : extractInterfaceChild child ifaceId = emitAll ifaceId (interfaceChildOutline child) := by
  unfold extractInterfaceChild interfaceChildOutline
  split
  . apply extractInterfaceItem_eq
  . apply extractModport_eq
  . apply extractClocking_eq
  . rfl

def extractInterface (node : Cst) (scopeId : NodeId) : ExtractM (Option NodeId) := do
  let ifaceName := interfaceName node
  if ifaceName = [] then
    pure none
  else
    let nameSym ← intern ifaceName
    let ifaceId ← addChild node.pos (.interface nameSym) scopeId .contains
    node.children.forM fun child => extractInterfaceChild child ifaceId
    pure (some ifaceId)

def interfaceOutline (node : Cst) : Option Outline :=
  let ifaceName := interfaceName node
  if ifaceName = [] then
    none
  else
    some (.node ⟨.interface ifaceName, .contains, node.pos⟩
      (node.children.flatMap interfaceChildOutline))

theorem extractInterface_eq (node : Cst) (scopeId : NodeId)
    : extractInterface node scopeId = emitOption scopeId (interfaceOutline node) := by
  have hitems : ∀ ifaceId : NodeId,
      (node.children.forM fun child => extractInterfaceChild child ifaceId)
        =
      emitAll ifaceId (node.children.flatMap interfaceChildOutline) := by
    intro ifaceId
    apply forM_eq_emitAll
    intro child
    apply extractInterfaceChild_eq
  unfold extractInterface interfaceOutline
  dsimp only
  split
  . rfl
  . simp only [hitems]
    simp [emitOption, emit, NodeKind.mapM]

end GraphExtractor
end HdlGraph
