import HdlGraph.Parse.Extractor.Outline

/-!
This module contains the extraction of ports, signals, always blocks, instances and assignments.
-/

namespace HdlGraph
namespace GraphExtractor

open ExtractM

def directionKeyword (text : Text) : Option PortDirection :=
  if text = "input".toList then some .input
  else if text = "output".toList then some .output
  else if text = "inout".toList then some .inout
  else none

def portDirection (node : Cst) (direction : PortDirection) : PortDirection :=
  Cst.lastOf direction (fun child => directionKeyword child.text) node.children

def ansiPortChild (direction : PortDirection) (child : Cst) : PortDirection :=
  match child.kind with
  | .portDirection => portDirection child direction
  | _ => direction

def nonansiPortChild (port : PortDirection × Text) (child : Cst) : PortDirection × Text :=
  let (direction, portName) := port
  match child.kind with
  | .input => (.input, portName)
  | .output => (.output, portName)
  | .inout => (.inout, portName)
  | .portDirection => (portDirection child direction, portName)
  | .simpleIdentifier => (direction, child.text)
  | _ => (direction, portName)

def portOf (node : Cst) : PortDirection × Text :=
  if node.kind = .ansiPortDeclaration then
    (node.children.foldl ansiPortChild .inout, node.fieldText .portName)
  else
    node.children.foldl nonansiPortChild (.inout, [])

def extractPort (node : Cst) (moduleId : NodeId) : ExtractM Unit := do
  let (direction, portName) := portOf node
  if portName ≠ [] then
    let nameSym ← intern portName
    let _ ← addChild node.pos (.modulePort nameSym direction) moduleId .defines

def portOutline (node : Cst) : List Outline :=
  let (direction, portName) := portOf node
  if portName ≠ [] then [.leaf node (.modulePort portName direction) .defines] else []

theorem extractPort_eq (node : Cst) (moduleId : NodeId)
    : extractPort node moduleId = emitAll moduleId (portOutline node) := by
  unfold extractPort portOutline
  dsimp only
  split <;> rfl

def extractPorts (node : Cst) (moduleId : NodeId) : ExtractM Unit :=
  node.children.forM fun child =>
    match child.kind with
    | .portDeclaration | .ansiPortDeclaration => extractPort child moduleId
    | _ => return ()

def portsOutline (node : Cst) : List Outline :=
  node.children.flatMap fun child =>
    match child.kind with
    | .portDeclaration | .ansiPortDeclaration => portOutline child
    | _ => []

theorem extractPorts_eq (node : Cst) (moduleId : NodeId)
    : extractPorts node moduleId = emitAll moduleId (portsOutline node) := by
  unfold extractPorts portsOutline
  apply forM_eq_emitAll
  intro child
  split <;> simp [extractPort_eq]

mutual

def detectSignalKind : Cst → SignalKind
  | .node _ _ _ _ children => detectSignalKindIn children

def detectSignalKindIn : List Cst → SignalKind
  | [] => .logic
  | child :: rest =>
    let t := child.text
    if t = "wire".toList then .wire
    else if t = "reg".toList then .reg
    else if t = "logic".toList ∨ t = "bit".toList ∨ t = "integer".toList then
      if t = "bit".toList ∨ t = "integer".toList then .integer else .logic
    else if child.kind = .netType ∨ child.kind = .integerVectorType
      ∨ child.kind = .integerAtomType then
      let inner := detectSignalKind child
      if inner ≠ .logic then inner else detectSignalKindIn rest
    else
      detectSignalKindIn rest

end

mutual

def collectSignalNames : Cst → List Text
  | .node _ _ _ _ children => collectSignalNamesIn children

def collectSignalNamesIn : List Cst → List Text
  | [] => []
  | child :: rest =>
    let names :=
      match child.kind with
      | .simpleIdentifier | .escapedIdentifier => [child.text]
      | .dataTypeOrImplicit | .implicitDataType | .dataType
      | .netType | .integerVectorType | .integerAtomType
      | .nonIntegerType | .signing | .delay3 | .delayControl
      | .delayValue | .driveStrength | .chargeStrength
      | .unpackedDimension | .constantExpression | .constantMintypmaxExpression
      | .parameterValueAssignment | .orderedParameterAssignment
      | .namedParameterAssignment => []
      | _ => collectSignalNames child
    names ++ collectSignalNamesIn rest

end

def extractSignal (node : Cst) (moduleId : NodeId) : ExtractM Unit :=
  let kind := detectSignalKind node
  (collectSignalNames node).forM fun name => do
    let nameSym ← intern name
    let _ ← addChild node.pos (.signalDecl nameSym kind) moduleId .defines

def signalOutline (node : Cst) : List Outline :=
  (collectSignalNames node).flatMap fun name =>
    [.leaf node (.signalDecl name (detectSignalKind node)) .defines]

theorem extractSignal_eq (node : Cst) (moduleId : NodeId)
    : extractSignal node moduleId = emitAll moduleId (signalOutline node) := by
  unfold extractSignal signalOutline
  apply forM_eq_emitAll
  intro name
  rfl

def alwaysKeyword (child : Cst) : Option AlwaysKind :=
  match child.kind with
  | .alwaysKeyword =>
    if child.text = "always_ff".toList then some .sequential
    else if child.text = "always_latch".toList then some .latch
    else none
  | _ => none

def alwaysKindOf (node : Cst) : AlwaysKind := Cst.lastOf .combinational alwaysKeyword node.children

def extractAlways (node : Cst) (moduleId : NodeId) : ExtractM Unit := do
  let _ ← addChild node.pos (.alwaysBlock (alwaysKindOf node)) moduleId .contains

def alwaysOutline (node : Cst) : List Outline :=
  [.leaf node (.alwaysBlock (alwaysKindOf node)) .contains]

theorem extractAlways_eq (node : Cst) (moduleId : NodeId)
    : extractAlways node moduleId = emitAll moduleId (alwaysOutline node) :=
  rfl

-- The arm for `continuous_assign`, which the source repeats in each body loop
def extractContinuousAssign (node : Cst) (parentId : NodeId) : ExtractM Unit := do
  let _ ← addChild node.pos .assignment parentId .contains

def assignOutline (node : Cst) : List Outline := [.leaf node .assignment .contains]

theorem extractContinuousAssign_eq (node : Cst) (parentId : NodeId)
    : extractContinuousAssign node parentId = emitAll parentId (assignOutline node) :=
  rfl

def extractHierarchicalInstance (node : Cst) (moduleType : Text) (moduleId : NodeId)
    : ExtractM Unit :=
  node.children.forM fun child => do
    if child.kind = .nameOfInstance then
      match child.childByFieldName .instanceName with
      | some nameNode =>
        let typeSym ← intern moduleType
        let nameSym ← intern nameNode.text
        let _ ← addChild node.pos (.moduleInstance nameSym typeSym) moduleId .contains
      | none => return ()

def hierarchicalInstanceOutline (node : Cst) (moduleType : Text) : List Outline :=
  node.children.flatMap fun child =>
    if child.kind = .nameOfInstance then
      match child.childByFieldName .instanceName with
      | some nameNode => [.leaf node (.moduleInstance nameNode.text moduleType) .contains]
      | none => []
    else []

theorem extractHierarchicalInstance_eq (node : Cst) (moduleType : Text) (moduleId : NodeId)
    : extractHierarchicalInstance node moduleType moduleId
        =
      emitAll moduleId (hierarchicalInstanceOutline node moduleType) := by
  unfold extractHierarchicalInstance hierarchicalInstanceOutline
  apply forM_eq_emitAll
  intro child
  split
  . split <;> rfl
  . rfl

def extractInstance (node : Cst) (moduleId : NodeId) : ExtractM Unit :=
  let moduleType := node.fieldText .instanceType
  if moduleType = [] then
    return ()
  else
    node.children.forM fun child => do
      if child.kind = .hierarchicalInstance then
        extractHierarchicalInstance child moduleType moduleId

def instanceOutline (node : Cst) : List Outline :=
  let moduleType := node.fieldText .instanceType
  if moduleType = [] then
    []
  else
    node.children.flatMap fun child =>
      if child.kind = .hierarchicalInstance then hierarchicalInstanceOutline child moduleType
        else []

theorem extractInstance_eq (node : Cst) (moduleId : NodeId)
    : extractInstance node moduleId = emitAll moduleId (instanceOutline node) := by
  unfold extractInstance instanceOutline
  dsimp only
  split
  . rfl
  . apply forM_eq_emitAll
    intro child
    split
    . apply extractHierarchicalInstance_eq
    . rfl

end GraphExtractor
end HdlGraph
