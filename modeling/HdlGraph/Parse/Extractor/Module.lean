import HdlGraph.Parse.Extractor.Generate
import HdlGraph.Parse.Extractor.Package

/-!
This module contains the extraction of modules. A module takes its id before its items and its node
is pushed after them, and only if the module has a name, so a module is not an emission as the other
declarations are: `extractModule_eq` states its three phases.
-/

namespace HdlGraph
namespace GraphExtractor

open ExtractM

/-! ## Functions and tasks -/

def functionBodyName (child : Cst) : Option Text :=
  match child.kind with
  | .functionBodyDeclaration | .functionPrototype => (child.childByFieldName .name).map Cst.text
  | _ => none

def taskBodyName (child : Cst) : Option Text :=
  match child.kind with
  | .taskBodyDeclaration | .taskPrototype => (child.childByFieldName .name).map Cst.text
  | _ => none

def functionName (node : Cst) : Text :=
  let own := (node.childByFieldName .name).map Cst.text
  ((own.or (node.children.findSome? functionBodyName)).or
    (node.children.findSome? taskBodyName)).getD []

def extractFunction (node : Cst) (moduleId : NodeId) : ExtractM Unit := do
  let funcName := functionName node
  if funcName ≠ [] then
    let nameSym ← intern funcName
    let funcId ← addChild node.pos (.function nameSym (node.kind = .taskDeclaration))
      moduleId .contains
    extractMethodCallsInSubtree node funcId

def functionOutline (node : Cst) : List Outline :=
  let funcName := functionName node
  if funcName ≠ [] then
    [.node ⟨.function funcName (node.kind = .taskDeclaration), .contains, node.pos⟩
      (methodCallsOutline node)]
  else []

theorem extractFunction_eq (node : Cst) (moduleId : NodeId)
    : extractFunction node moduleId = emitAll moduleId (functionOutline node) := by
  unfold extractFunction functionOutline
  dsimp only
  split
  . simp only [extractMethodCallsInSubtree_eq]
    rw [emitAll_singleton]
    simp [emit, NodeKind.mapM]
  . rfl

/-! ## Items -/

def extractDeclaration (node : Cst) (moduleId : NodeId) : ExtractM Unit := do
  if (detectTlmPort node).isSome then
    extractTlmPort node moduleId
  else
    extractSignal node moduleId
  extractFactoryRegistration node moduleId

def declarationOutline (node : Cst) : List Outline :=
  (if (detectTlmPort node).isSome then tlmPortOutline node else signalOutline node)
  ++ factoryRegistrationOutline node

theorem extractDeclaration_eq (node : Cst) (moduleId : NodeId)
    : extractDeclaration node moduleId = emitAll moduleId (declarationOutline node) := by
  unfold extractDeclaration declarationOutline
  rw [emitAll_append, extractFactoryRegistration_eq]
  split
  . rw [extractTlmPort_eq]
  . rw [extractSignal_eq]

def extractAlwaysWithCalls (node : Cst) (moduleId : NodeId) : ExtractM Unit := do
  extractAlways node moduleId
  extractMethodCallsInSubtree node moduleId

theorem extractAlwaysWithCalls_eq (node : Cst) (moduleId : NodeId)
    : extractAlwaysWithCalls node moduleId
        =
      emitAll moduleId (alwaysOutline node ++ methodCallsOutline node) := by
  rw [extractAlwaysWithCalls, emitAll_append, extractAlways_eq, extractMethodCallsInSubtree_eq]

theorem discard_emitOption (parentId : NodeId) {x : ExtractM (Option NodeId)} {o : Option Outline}
    (hx : x = emitOption parentId o)
    : (x >>= fun _ => pure ()) = emitAll parentId o.toList := by
  rw [hx, emitOption_toList]

def extractModuleBodyChild (child : Cst) (moduleId : NodeId) : ExtractM Unit :=
  match child.kind with
  | .netDeclaration | .dataDeclaration => extractDeclaration child moduleId
  | .alwaysConstruct => extractAlwaysWithCalls child moduleId
  | .initialConstruct | .finalConstruct => extractMethodCallsInSubtree child moduleId
  | .moduleInstantiation | .udpInstantiation => extractInstance child moduleId
  | .continuousAssign => extractContinuousAssign child moduleId
  | .loopGenerateConstruct => extractGenerateFor child moduleId
  | .conditionalGenerateConstruct => extractGenerateIf child moduleId
  | .generateRegion => extractGenerateRegion child moduleId
  | .concurrentAssertionItem => extractConcurrentAssertionItem child moduleId
  | .covergroupDeclaration => extractCovergroupDeclaration child moduleId
  | .propertyDeclaration => extractPropertyDeclaration child moduleId
  | .sequenceDeclaration => extractSequenceDeclaration child moduleId
  | .dpiImportExport => extractDpiImport child moduleId
  | .bindDirective => extractBindDirective child moduleId
  | .configDeclaration => extractConfigDeclaration child moduleId
  | .classDeclaration => do let _ ← extractClass child moduleId
  | .interfaceDeclaration => do let _ ← extractInterface child moduleId
  | _ => return ()

def moduleBodyChildOutline (child : Cst) : List Outline :=
  match child.kind with
  | .netDeclaration | .dataDeclaration => declarationOutline child
  | .alwaysConstruct => alwaysOutline child ++ methodCallsOutline child
  | .initialConstruct | .finalConstruct => methodCallsOutline child
  | .moduleInstantiation | .udpInstantiation => instanceOutline child
  | .continuousAssign => assignOutline child
  | .loopGenerateConstruct => generateForOutline child
  | .conditionalGenerateConstruct => generateIfOutline child
  | .generateRegion => generateRegionOutline child
  | .concurrentAssertionItem => assertionOutline child
  | .covergroupDeclaration => covergroupOutline child
  | .propertyDeclaration => namedOutline .propertyDecl child
  | .sequenceDeclaration => namedOutline .sequenceDecl child
  | .dpiImportExport => dpiOutline child
  | .bindDirective => bindOutline child
  | .configDeclaration => namedOutline .configBlock child
  | .classDeclaration => (classOutline child).toList
  | .interfaceDeclaration => (interfaceOutline child).toList
  | _ => []

theorem extractModuleBodyChild_eq (child : Cst) (moduleId : NodeId)
    : extractModuleBodyChild child moduleId = emitAll moduleId (moduleBodyChildOutline child) := by
  unfold extractModuleBodyChild moduleBodyChildOutline
  split
  . apply extractDeclaration_eq
  . apply extractDeclaration_eq
  . apply extractAlwaysWithCalls_eq
  . apply extractMethodCallsInSubtree_eq
  . apply extractMethodCallsInSubtree_eq
  . apply extractInstance_eq
  . apply extractInstance_eq
  . apply extractContinuousAssign_eq
  . apply extractGenerateFor_eq
  . apply extractGenerateIf_eq
  . apply extractGenerateRegion_eq
  . apply extractConcurrentAssertionItem_eq
  . apply extractCovergroupDeclaration_eq
  . apply extractPropertyDeclaration_eq
  . apply extractSequenceDeclaration_eq
  . apply extractDpiImport_eq
  . apply extractBindDirective_eq
  . apply extractConfigDeclaration_eq
  . exact discard_emitOption moduleId (extractClass_eq moduleId child)
  . exact discard_emitOption moduleId (extractInterface_eq child moduleId)
  . rfl

def extractModuleBody (node : Cst) (moduleId : NodeId) : ExtractM Unit :=
  node.children.forM fun child => extractModuleBodyChild child moduleId

def moduleBodyOutline (node : Cst) : List Outline := node.children.flatMap moduleBodyChildOutline

theorem extractModuleBody_eq (node : Cst) (moduleId : NodeId)
    : extractModuleBody node moduleId = emitAll moduleId (moduleBodyOutline node) := by
  unfold extractModuleBody moduleBodyOutline
  apply forM_eq_emitAll
  intro child
  apply extractModuleBodyChild_eq

def extractHeader (node : Cst) (moduleId : NodeId) : ExtractM Unit :=
  node.children.forM fun hchild => do
    if hchild.kind = .listOfPorts ∨ hchild.kind = .listOfPortDeclarations then
      extractPorts hchild moduleId

def headerOutline (node : Cst) : List Outline :=
  node.children.flatMap fun hchild =>
    if hchild.kind = .listOfPorts ∨ hchild.kind = .listOfPortDeclarations then
      portsOutline hchild else []

theorem extractHeader_eq (node : Cst) (moduleId : NodeId)
    : extractHeader node moduleId = emitAll moduleId (headerOutline node) := by
  unfold extractHeader headerOutline
  apply forM_eq_emitAll
  intro hchild
  split
  . apply extractPorts_eq
  . rfl

def extractModuleChild (child : Cst) (moduleId : NodeId) : ExtractM Unit :=
  match child.kind with
  | .moduleHeader | .moduleNonansiHeader | .moduleAnsiHeader => extractHeader child moduleId
  | .netDeclaration | .dataDeclaration => extractDeclaration child moduleId
  | .alwaysConstruct => extractAlwaysWithCalls child moduleId
  | .initialConstruct | .finalConstruct => extractMethodCallsInSubtree child moduleId
  | .moduleInstantiation | .udpInstantiation | .gateInstantiation | .interfaceInstantiation =>
    extractInstance child moduleId
  | .continuousAssign => extractContinuousAssign child moduleId
  | .functionDeclaration | .taskDeclaration => extractFunction child moduleId
  | .loopGenerateConstruct => extractGenerateFor child moduleId
  | .conditionalGenerateConstruct => extractGenerateIf child moduleId
  | .generateRegion => extractGenerateRegion child moduleId
  | .concurrentAssertionItem => extractConcurrentAssertionItem child moduleId
  | .covergroupDeclaration => extractCovergroupDeclaration child moduleId
  | .propertyDeclaration => extractPropertyDeclaration child moduleId
  | .sequenceDeclaration => extractSequenceDeclaration child moduleId
  | .dpiImportExport => extractDpiImport child moduleId
  | .bindDirective => extractBindDirective child moduleId
  | .configDeclaration => extractConfigDeclaration child moduleId
  | .moduleItem => extractModuleBody child moduleId
  | .classDeclaration => do let _ ← extractClass child moduleId
  | .interfaceDeclaration => do let _ ← extractInterface child moduleId
  | _ => return ()

def moduleChildOutline (child : Cst) : List Outline :=
  match child.kind with
  | .moduleHeader | .moduleNonansiHeader | .moduleAnsiHeader => headerOutline child
  | .netDeclaration | .dataDeclaration => declarationOutline child
  | .alwaysConstruct => alwaysOutline child ++ methodCallsOutline child
  | .initialConstruct | .finalConstruct => methodCallsOutline child
  | .moduleInstantiation | .udpInstantiation | .gateInstantiation | .interfaceInstantiation =>
    instanceOutline child
  | .continuousAssign => assignOutline child
  | .functionDeclaration | .taskDeclaration => functionOutline child
  | .loopGenerateConstruct => generateForOutline child
  | .conditionalGenerateConstruct => generateIfOutline child
  | .generateRegion => generateRegionOutline child
  | .concurrentAssertionItem => assertionOutline child
  | .covergroupDeclaration => covergroupOutline child
  | .propertyDeclaration => namedOutline .propertyDecl child
  | .sequenceDeclaration => namedOutline .sequenceDecl child
  | .dpiImportExport => dpiOutline child
  | .bindDirective => bindOutline child
  | .configDeclaration => namedOutline .configBlock child
  | .moduleItem => moduleBodyOutline child
  | .classDeclaration => (classOutline child).toList
  | .interfaceDeclaration => (interfaceOutline child).toList
  | _ => []

theorem extractModuleChild_eq (child : Cst) (moduleId : NodeId)
    : extractModuleChild child moduleId = emitAll moduleId (moduleChildOutline child) := by
  unfold extractModuleChild moduleChildOutline
  split
  . apply extractHeader_eq
  . apply extractHeader_eq
  . apply extractHeader_eq
  . apply extractDeclaration_eq
  . apply extractDeclaration_eq
  . apply extractAlwaysWithCalls_eq
  . apply extractMethodCallsInSubtree_eq
  . apply extractMethodCallsInSubtree_eq
  . apply extractInstance_eq
  . apply extractInstance_eq
  . apply extractInstance_eq
  . apply extractInstance_eq
  . apply extractContinuousAssign_eq
  . apply extractFunction_eq
  . apply extractFunction_eq
  . apply extractGenerateFor_eq
  . apply extractGenerateIf_eq
  . apply extractGenerateRegion_eq
  . apply extractConcurrentAssertionItem_eq
  . apply extractCovergroupDeclaration_eq
  . apply extractPropertyDeclaration_eq
  . apply extractSequenceDeclaration_eq
  . apply extractDpiImport_eq
  . apply extractBindDirective_eq
  . apply extractConfigDeclaration_eq
  . apply extractModuleBody_eq
  . exact discard_emitOption moduleId (extractClass_eq moduleId child)
  . exact discard_emitOption moduleId (extractInterface_eq child moduleId)
  . rfl

/-! ## Modules -/

def moduleHeaderName (child : Cst) : Option Text :=
  match child.kind with
  | .moduleHeader | .moduleNonansiHeader | .moduleAnsiHeader =>
    (child.childByFieldName .name).map Cst.text
  | _ => none

-- The name that the last header of a module gives; empty if there is none
def moduleName (node : Cst) : Text := Cst.lastOf [] moduleHeaderName node.children

def extractModule (node : Cst) : ExtractM (Option NodeId) := do
  let moduleId ← ExtractM.nextId
  node.children.forM fun child => extractModuleChild child moduleId
  let name := moduleName node
  if name = [] then
    pure none
  else
    let nameSym ← intern name
    pushNode node.pos moduleId (.module nameSym)
    pure (some moduleId)

def moduleItemsOutline (node : Cst) : List Outline := node.children.flatMap moduleChildOutline

theorem extractModule_eq (node : Cst)
    : extractModule node
        =
      ExtractM.nextId >>= fun moduleId =>
        emitAll moduleId (moduleItemsOutline node) >>= fun _ =>
          if moduleName node = [] then
            pure none
          else
            intern (moduleName node) >>= fun nameSym =>
              pushNode node.pos moduleId (.module nameSym) >>= fun _ => pure (some moduleId) := by
  have hitems : ∀ moduleId : NodeId,
      (node.children.forM fun child => extractModuleChild child moduleId)
        =
      emitAll moduleId (moduleItemsOutline node) := by
    intro moduleId
    apply forM_eq_emitAll
    intro child
    apply extractModuleChild_eq
  unfold extractModule
  simp only [hitems]

end GraphExtractor
end HdlGraph
