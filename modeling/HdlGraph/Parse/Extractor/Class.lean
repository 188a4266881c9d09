import HdlGraph.Parse.Extractor.Declarations
import HdlGraph.Parse.Extractor.Uvm

/-!
This module contains the extraction of classes with their properties, methods and nested classes.
-/

namespace HdlGraph
namespace GraphExtractor

open ExtractM

def findParentClassIn (foundExtends : Bool) : List Cst → Option Text
  | [] => none
  | child :: rest =>
    if child.text = "extends".toList then findParentClassIn true rest
    else if foundExtends ∧ child.kind = .classType then some child.text
    else findParentClassIn foundExtends rest

def findParentClass (node : Cst) : Option Text := findParentClassIn false node.children

-- The arm of `extract_class_property` for the variables that a data declaration names
def extractProperties (node : Cst) (classId : NodeId) : ExtractM Unit :=
  (collectSignalNames node).forM fun name => do
    let nameSym ← intern name
    let _ ← addChild node.pos (.property nameSym) classId .defines

def propertiesOutline (node : Cst) : List Outline :=
  (collectSignalNames node).flatMap fun name => [.leaf node (.property name) .defines]

theorem extractProperties_eq (node : Cst) (classId : NodeId)
    : extractProperties node classId = emitAll classId (propertiesOutline node) := by
  unfold extractProperties propertiesOutline
  apply forM_eq_emitAll
  intro name
  rfl

def extractClassProperty (node : Cst) (classId : NodeId) : ExtractM Unit :=
  node.children.forM fun child => do
    if child.kind = .dataDeclaration then
      extractProperties child classId
      extractFactoryRegistration child classId

def classPropertyOutline (node : Cst) : List Outline :=
  node.children.flatMap fun child =>
    if child.kind = .dataDeclaration then
      propertiesOutline child ++ factoryRegistrationOutline child else []

theorem extractClassProperty_eq (node : Cst) (classId : NodeId)
    : extractClassProperty node classId = emitAll classId (classPropertyOutline node) := by
  unfold extractClassProperty classPropertyOutline
  apply forM_eq_emitAll
  intro child
  split
  . rw [emitAll_append, extractProperties_eq, extractFactoryRegistration_eq]
  . rfl

def classMethodChild (found : Bool × Text) (child : Cst) : Bool × Text :=
  let (isVirtual, methodName) := found
  match child.kind with
  | .methodQualifier => (isVirtual || child.children.any (·.text = "virtual".toList), methodName)
  | .functionDeclaration | .taskDeclaration =>
    (isVirtual, ((child.childByFieldName .name).map Cst.text).getD methodName)
  | .classConstructorDeclaration => (isVirtual, "new".toList)
  | _ => (isVirtual || child.text = "virtual".toList, methodName)

def classMethodOf (node : Cst) : Bool × Text := node.children.foldl classMethodChild (false, [])

def extractClassMethod (node : Cst) (classId : NodeId) : ExtractM Unit := do
  let (isVirtual, methodName) := classMethodOf node
  if methodName ≠ [] then
    let nameSym ← intern methodName
    let methodId ← addChild node.pos (.method nameSym isVirtual) classId .defines
    extractMethodCallsInSubtree node methodId

def classMethodOutline (node : Cst) : List Outline :=
  let (isVirtual, methodName) := classMethodOf node
  if methodName ≠ [] then
    [.node ⟨.method methodName isVirtual, .defines, node.pos⟩ (methodCallsOutline node)]
  else []

theorem extractClassMethod_eq (node : Cst) (classId : NodeId)
    : extractClassMethod node classId = emitAll classId (classMethodOutline node) := by
  unfold extractClassMethod classMethodOutline
  dsimp only
  split
  . simp only [extractMethodCallsInSubtree_eq]
    rw [emitAll_singleton]
    simp [emit, NodeKind.mapM]
  . rfl

mutual

def extractClass (node : Cst) (scopeId : NodeId) : ExtractM (Option NodeId) :=
  match node with
  | .node kind fields text pos children => do
    let node := Cst.node kind fields text pos children
    let className := node.fieldText .name
    if className = [] then
      pure none
    else
      let parentName := findParentClass node
      let nameSym ← intern className
      let parentSym ← parentName.mapM intern
      let classId ← addChild pos (.class nameSym parentSym) scopeId .contains
      extractClassBody children classId
      pure (some classId)

def extractClassBody (children : List Cst) (classId : NodeId) : ExtractM Unit :=
  match children with
  | [] => return ()
  | child :: rest => do
    if child.kind = .classItem then
      extractClassItem child classId
    extractClassBody rest classId

def extractClassItem (node : Cst) (classId : NodeId) : ExtractM Unit :=
  match node with
  | .node _ _ _ _ children => extractClassItems children classId

def extractClassItems (children : List Cst) (classId : NodeId) : ExtractM Unit :=
  match children with
  | [] => return ()
  | child :: rest => do
    match child.kind with
    | .classProperty => extractClassProperty child classId
    | .classMethod => extractClassMethod child classId
    | .classDeclaration =>
      let _ ← extractClass child classId
    | _ => pure ()
    extractClassItems rest classId

end

mutual

def classOutline : Cst → Option Outline
  | .node kind fields text pos children =>
    let node := Cst.node kind fields text pos children
    let className := node.fieldText .name
    if className = [] then
      none
    else
      some (.node ⟨.class className (findParentClass node), .contains, pos⟩
        (classBodyOutline children))

def classBodyOutline : List Cst → List Outline
  | [] => []
  | child :: rest =>
    (if child.kind = .classItem then classItemOutline child else []) ++ classBodyOutline rest

def classItemOutline : Cst → List Outline
  | .node _ _ _ _ children => classItemsOutline children

def classItemsOutline : List Cst → List Outline
  | [] => []
  | child :: rest =>
    (match child.kind with
    | .classProperty => classPropertyOutline child
    | .classMethod => classMethodOutline child
    | .classDeclaration => (classOutline child).toList
    | _ => [])
      ++ classItemsOutline rest

end

def emitOption (parentId : NodeId) : Option Outline → ExtractM (Option NodeId)
  | none => return none
  | some o => return some (← emit parentId o)

theorem emitOption_toList (parentId : NodeId) (o : Option Outline)
    : (emitOption parentId o >>= fun _ => pure ()) = emitAll parentId o.toList := by
  cases o with
  | none => rfl
  | some o => simp [emitOption, emitAll_singleton]

theorem mapM_class (className : Text) (parentName : Option Text)
    : (NodeKind.class className parentName).mapM intern
        =
      intern className >>= fun nameSym =>
        parentName.mapM intern >>= fun parentSym => pure (.class nameSym parentSym) := by
  cases parentName <;> rfl

mutual

theorem extractClass_eq (scopeId : NodeId)
    : (node : Cst) → extractClass node scopeId = emitOption scopeId (classOutline node)
  | .node _ _ _ _ children => by
    simp only [extractClass, classOutline]
    split
    . rfl
    . simp only [emitOption, emit, mapM_class, extractClassBody_eq _ children,
        bind_assoc, pure_bind]

theorem extractClassBody_eq (classId : NodeId)
    : (children : List Cst) →
        extractClassBody children classId = emitAll classId (classBodyOutline children)
  | [] => by simp only [extractClassBody, classBodyOutline, emitAll_nil]
  | child :: rest => by
    rw [extractClassBody, classBodyOutline, emitAll_append, extractClassBody_eq]
    split
    . rw [extractClassItem_eq]
    . rfl

theorem extractClassItem_eq (classId : NodeId)
    : (node : Cst) → extractClassItem node classId = emitAll classId (classItemOutline node)
  | .node _ _ _ _ children => by
    simp only [extractClassItem, classItemOutline]
    apply extractClassItems_eq

theorem extractClassItems_eq (classId : NodeId)
    : (children : List Cst) →
        extractClassItems children classId = emitAll classId (classItemsOutline children)
  | [] => by simp only [extractClassItems, classItemsOutline, emitAll_nil]
  | child :: rest => by
    rw [extractClassItems, classItemsOutline, emitAll_append, extractClassItems_eq]
    split
    . rw [extractClassProperty_eq]
    . rw [extractClassMethod_eq]
    . simp only [extractClass_eq, ← emitOption_toList, bind_assoc, pure_bind]
    . rfl

end

end GraphExtractor
end HdlGraph
