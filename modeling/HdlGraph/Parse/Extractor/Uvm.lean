import HdlGraph.Parse.Extractor.Outline

/-!
This module contains the extraction of UVM constructs: TLM ports and bindings, config-db accesses,
factory registrations, creations and overrides, and the scan of a body for the calls among them.
-/

namespace HdlGraph
namespace GraphExtractor

open ExtractM Text

/-! ## TLM -/

def tlmDirectionFromTypeName (typeName : Text) : Option TLMDirection :=
  if contains typeName "uvm_analysis_port".toList then some .analysisPort
  else if contains typeName "uvm_analysis_imp".toList
    || contains typeName "uvm_analysis_export".toList then
    some .analysisExport
  else if contains typeName "uvm_blocking".toList then some .blocking
  else if contains typeName "uvm_nonblocking".toList then some .nonblocking
  else if contains typeName "uvm_tlm_fifo".toList then some .fifo
  else none

def tlmDirectionFromClassType (node : Cst) : Option TLMDirection :=
  node.children.findSome? fun gc =>
    (if gc.kind = .psClassIdentifier then tlmDirectionFromTypeName gc.text else none)
      <|> tlmDirectionFromTypeName gc.text

mutual

def tlmDirectionFromDataType : Cst → Option TLMDirection
  | .node _ _ text _ children => tlmDirectionFromChildren text children

def tlmDirectionFromChildren (text : Text) : List Cst → Option TLMDirection
  | [] => tlmDirectionFromTypeName text
  | child :: rest =>
    match child.kind with
    | .dataType | .implicitDataType => tlmDirectionFromDataType child
    | .classType => tlmDirectionFromClassType child <|> tlmDirectionFromChildren text rest
    | .simpleIdentifier =>
      tlmDirectionFromTypeName child.text <|> tlmDirectionFromChildren text rest
    | _ => tlmDirectionFromChildren text rest

end

def detectTlmPort (node : Cst) : Option TLMDirection :=
  tlmDirectionFromTypeName node.text
    <|> node.children.findSome? fun child =>
      if child.kind = .dataTypeOrImplicit then tlmDirectionFromDataType child else none

def extractTlmVariables (node : Cst) (dir : TLMDirection) (parentId : NodeId) : ExtractM Unit :=
  node.children.forM fun varDecl => do
    if varDecl.kind = .variableDeclAssignment then
      match varDecl.childByFieldName .name with
      | some nameNode =>
        let nameSym ← intern nameNode.text
        let _ ← addChild varDecl.pos (.tlmPort nameSym dir) parentId .defines
      | none => return ()

def tlmVariablesOutline (node : Cst) (dir : TLMDirection) : List Outline :=
  node.children.flatMap fun varDecl =>
    if varDecl.kind = .variableDeclAssignment then
      match varDecl.childByFieldName .name with
      | some nameNode => [.leaf varDecl (.tlmPort nameNode.text dir) .defines]
      | none => []
    else []

theorem extractTlmVariables_eq (node : Cst) (dir : TLMDirection) (parentId : NodeId)
    : extractTlmVariables node dir parentId = emitAll parentId (tlmVariablesOutline node dir) := by
  unfold extractTlmVariables tlmVariablesOutline
  apply forM_eq_emitAll
  intro varDecl
  split
  . split <;> rfl
  . rfl

def extractTlmPort (node : Cst) (parentId : NodeId) : ExtractM Unit :=
  match detectTlmPort node with
  | some dir =>
    node.children.forM fun child => do
      if child.kind = .listOfVariableDeclAssignments then
        extractTlmVariables child dir parentId
  | none => return ()

def tlmPortOutline (node : Cst) : List Outline :=
  match detectTlmPort node with
  | some dir =>
    node.children.flatMap fun child =>
      if child.kind = .listOfVariableDeclAssignments then tlmVariablesOutline child dir else []
  | none => []

theorem extractTlmPort_eq (node : Cst) (parentId : NodeId)
    : extractTlmPort node parentId = emitAll parentId (tlmPortOutline node) := by
  unfold extractTlmPort tlmPortOutline
  split
  . apply forM_eq_emitAll
    intro child
    split
    . apply extractTlmVariables_eq
    . rfl
  . rfl

def extractTlmConnect (node : Cst) (parentId : NodeId) : ExtractM Unit := do
  let _ ← addChild node.pos .tlmBinding parentId .contains

def tlmConnectOutline (node : Cst) : List Outline := [.leaf node .tlmBinding .contains]

/-! ## Config db -/

def methodCallName (child : Cst) : Option Text :=
  if child.kind = .methodCallBody then (child.childByFieldName .name).map Cst.text else none

def methodName (node : Cst) : Text := Cst.lastOf [] methodCallName node.children

def getNthArgument (node : Cst) (index : Nat) : Option Text :=
  node.children.findSome? fun child =>
    if child.kind = .methodCallBody then
      (child.childByFieldName .arguments).bind fun argsNode =>
        argsNode.children.findSome? fun argChild =>
          if argChild.kind = .listOfArguments then
            (argChild.children.filter (·.kind = .expression))[index]?.map fun expr =>
              trimMatches '"' expr.text
          else none
    else none

def extractConfigDbField (node : Cst) (expectedName : Text) : Option Text :=
  let hasUvmConfigDb := node.children.any fun child =>
    child.kind = .classType && startsWith child.text "uvm_config_db".toList
  if !hasUvmConfigDb || methodName node ≠ expectedName then
    none
  else
    getNthArgument node 2

def isUvmConfigDbSet (node : Cst) : Option Text := extractConfigDbField node "set".toList

def isUvmConfigDbGet (node : Cst) : Option Text := extractConfigDbField node "get".toList

def extractConfigDbSet (node : Cst) (parentId : NodeId) : ExtractM Unit := do
  match isUvmConfigDbSet node with
  | some field =>
    let fieldSym ← intern field
    let _ ← addChild node.pos (.configDBSet fieldSym) parentId .contains
  | none => return ()

def extractConfigDbGet (node : Cst) (parentId : NodeId) : ExtractM Unit := do
  match isUvmConfigDbGet node with
  | some field =>
    let fieldSym ← intern field
    let _ ← addChild node.pos (.configDBGet fieldSym) parentId .contains
  | none => return ()

def configDbSetOutline (node : Cst) : List Outline :=
  match isUvmConfigDbSet node with
  | some field => [.leaf node (.configDBSet field) .contains]
  | none => []

def configDbGetOutline (node : Cst) : List Outline :=
  match isUvmConfigDbGet node with
  | some field => [.leaf node (.configDBGet field) .contains]
  | none => []

theorem extractConfigDbSet_eq (node : Cst) (parentId : NodeId)
    : extractConfigDbSet node parentId = emitAll parentId (configDbSetOutline node) := by
  unfold extractConfigDbSet configDbSetOutline
  split <;> rfl

theorem extractConfigDbGet_eq (node : Cst) (parentId : NodeId)
    : extractConfigDbGet node parentId = emitAll parentId (configDbGetOutline node) := by
  unfold extractConfigDbGet configDbGetOutline
  split <;> rfl

/-! ## Factory -/

def upToClosingParen (depth : Nat) : Text → Option Text
  | [] => none
  | ch :: rest =>
    if ch = '(' then (upToClosingParen (depth + 1) rest).map (ch :: ·)
    else if ch = ')' then
      if depth = 1 then some [] else (upToClosingParen (depth - 1) rest).map (ch :: ·)
    else (upToClosingParen depth rest).map (ch :: ·)

-- The text before the first comma outside brackets of all three kinds
def firstParam (depth : Int) : Text → Text
  | [] => []
  | ch :: rest =>
    if ch = '(' ∨ ch = '[' ∨ ch = '{' then ch :: firstParam (depth + 1) rest
    else if ch = ')' ∨ ch = ']' ∨ ch = '}' then ch :: firstParam (depth - 1) rest
    else if ch = ',' ∧ depth = 0 then []
    else ch :: firstParam depth rest

def parseRegistryTypeName (declText : Text) : Option Text := do
  let (_, afterParen) ← find? "#(".toList declText
  let params ← upToClosingParen 1 afterParen
  let trimmed := trim (firstParam 0 params)
  if trimmed = [] then none else some trimmed

def registryBaseType (declText : Text) : Option Text :=
  if contains declText "uvm_component_registry".toList then some "uvm_component".toList
  else if contains declText "uvm_object_registry".toList then some "uvm_object".toList
  else none

def factoryRegistrationOf (declText : Text) : Option (Text × Text) := do
  let baseType ← registryBaseType declText
  let typeName ← parseRegistryTypeName declText
  return (typeName, baseType)

def extractFactoryRegistration (node : Cst) (parentId : NodeId) : ExtractM Unit := do
  match factoryRegistrationOf node.text with
  | some (typeName, baseType) =>
    let typeSym ← intern typeName
    let baseSym ← intern baseType
    let _ ← addChild node.pos (.factoryReg typeSym baseSym) parentId .factoryRegisters
  | none => return ()

def factoryRegistrationOutline (node : Cst) : List Outline :=
  match factoryRegistrationOf node.text with
  | some (typeName, baseType) => [.leaf node (.factoryReg typeName baseType) .factoryRegisters]
  | none => []

theorem extractFactoryRegistration_eq (node : Cst) (parentId : NodeId)
    : extractFactoryRegistration node parentId
        = emitAll parentId (factoryRegistrationOutline node) := by
  unfold extractFactoryRegistration factoryRegistrationOutline
  split <;> rfl

def classTypeText (node : Cst) : Text :=
  Cst.lastOf [] (fun child => if child.kind = .classType then some child.text else none)
    node.children

def isFactoryCreate (node : Cst) : Option Text :=
  if methodName node ≠ "create".toList then
    none
  else
    let cleaned := trim (trimEndChar ':' (classTypeText node))
    if cleaned = "type_id".toList then
      none
    else
      (stripSuffix? "::type_id".toList cleaned).bind fun prefixText =>
        let trimmed := trim prefixText
        if trimmed = [] then none else some trimmed

def addFactoryCreate (node : Cst) (typeName : Text) (parentId : NodeId) : ExtractM Unit := do
  let typeSym ← intern typeName
  let _ ← addChild node.pos (.factoryCreate typeSym) parentId .contains

def extractFactoryCreate (node : Cst) (parentId : NodeId) : ExtractM Unit :=
  match isFactoryCreate node with
  | some typeName => addFactoryCreate node typeName parentId
  | none => return ()

def factoryCreateOutline (node : Cst) : List Outline :=
  match isFactoryCreate node with
  | some typeName => [.leaf node (.factoryCreate typeName) .contains]
  | none => []

theorem extractFactoryCreate_eq (node : Cst) (parentId : NodeId)
    : extractFactoryCreate node parentId = emitAll parentId (factoryCreateOutline node) := by
  unfold extractFactoryCreate factoryCreateOutline
  split <;> rfl

def cleanArg (arg : Text) : Text :=
  let trimmed := trim arg
  if trimmed = [] then
    []
  else
    match before? "::get_type".toList trimmed with
    | some before => trim before
    | none =>
      let stripped :=
        ((stripPrefix? "\"".toList trimmed).bind (stripSuffix? "\"".toList)).getD trimmed
      trim stripped

def cleanOverrideArgs : List Text → Option (Text × Text)
  | arg₀ :: arg₁ :: _ =>
    let first := cleanArg arg₀
    let second := cleanArg arg₁
    if first = [] ∨ second = [] then none else some (first, second)
  | _ => none

def collectArgs (node : Cst) : List Text :=
  node.children.flatMap fun child =>
    if child.kind = .listOfArguments then
      (child.children.filter fun argChild =>
        argChild.kind ≠ .comma ∧ argChild.kind ≠ .leftParen ∧ argChild.kind ≠ .rightParen
          ∧ argChild.kind ≠ .semicolon).map Cst.text
    else []

def extractOverrideArgs (node : Cst) : Option (Text × Text) :=
  (node.children.find? (·.kind = .methodCallBody)).bind fun child =>
    cleanOverrideArgs (collectArgs child)

def isFactoryOverride (node : Cst) : Option (Text × Text) :=
  let name := methodName node
  if name ≠ "set_type_override".toList ∧ name ≠ "set_inst_override".toList then
    none
  else
    extractOverrideArgs node

def addFactoryOverride (node : Cst) (originalType overrideType : Text) (parentId : NodeId)
    : ExtractM Unit := do
  let origSym ← intern originalType
  let overSym ← intern overrideType
  let _ ← addChild node.pos (.factoryOverride origSym overSym) parentId .factoryOverrides

def extractFactoryOverride (node : Cst) (parentId : NodeId) : ExtractM Unit :=
  match isFactoryOverride node with
  | some (originalType, overrideType) => addFactoryOverride node originalType overrideType parentId
  | none => return ()

def factoryOverrideOutline (node : Cst) : List Outline :=
  match isFactoryOverride node with
  | some (originalType, overrideType) =>
    [.leaf node (.factoryOverride originalType overrideType) .factoryOverrides]
  | none => []

theorem extractFactoryOverride_eq (node : Cst) (parentId : NodeId)
    : extractFactoryOverride node parentId = emitAll parentId (factoryOverrideOutline node) := by
  unfold extractFactoryOverride factoryOverrideOutline
  split <;> rfl

/-! ## The same calls parsed as `tf_call` -/

def scopedTypeName (scopeFragments : List Text) : Text :=
  if scopeFragments.length ≥ 2 then join "::".toList scopeFragments.dropLast else []

def extractFactoryCreateViaTf (node : Cst) (scopeFragments : List Text) (parentId : NodeId)
    : ExtractM Unit := do
  let typeName := scopedTypeName scopeFragments
  if typeName ≠ [] then
    addFactoryCreate node typeName parentId

def factoryCreateViaTfOutline (node : Cst) (scopeFragments : List Text) : List Outline :=
  let typeName := scopedTypeName scopeFragments
  if typeName ≠ [] then [.leaf node (.factoryCreate typeName) .contains] else []

theorem extractFactoryCreateViaTf_eq (node : Cst) (scopeFragments : List Text) (parentId : NodeId)
    : extractFactoryCreateViaTf node scopeFragments parentId
        =
      emitAll parentId (factoryCreateViaTfOutline node scopeFragments) := by
  unfold extractFactoryCreateViaTf factoryCreateViaTfOutline
  dsimp only
  split <;> rfl

def scopedOverride (scopeFragments args : List Text) : Option (Text × Text) :=
  if scopeFragments.length ≥ 2 ∧ scopeFragments.getLast? = some "type_id".toList then
    let originalType := join "::".toList scopeFragments.dropLast
    let overrideType := (args.head?.map cleanArg).getD []
    if originalType ≠ [] ∧ overrideType ≠ [] then some (originalType, overrideType) else none
  else none

def overrideViaTf (node : Cst) (scopeFragments : List Text) : Option (Text × Text) :=
  let args := collectArgs node
  scopedOverride scopeFragments args <|> cleanOverrideArgs args

def extractFactoryOverrideViaTf (node : Cst) (scopeFragments : List Text) (parentId : NodeId)
    : ExtractM Unit :=
  match overrideViaTf node scopeFragments with
  | some (originalType, overrideType) => addFactoryOverride node originalType overrideType parentId
  | none => return ()

def factoryOverrideViaTfOutline (node : Cst) (scopeFragments : List Text) : List Outline :=
  match overrideViaTf node scopeFragments with
  | some (originalType, overrideType) =>
    [.leaf node (.factoryOverride originalType overrideType) .factoryOverrides]
  | none => []

theorem extractFactoryOverrideViaTf_eq (node : Cst) (scopeFragments : List Text) (parentId : NodeId)
    : extractFactoryOverrideViaTf node scopeFragments parentId
        =
      emitAll parentId (factoryOverrideViaTfOutline node scopeFragments) := by
  unfold extractFactoryOverrideViaTf factoryOverrideViaTfOutline
  split <;> rfl

/-! ## Dispatch -/

def extractMethodCall (node : Cst) (parentId : NodeId) : ExtractM Unit :=
  let name := methodName node
  if name = "connect".toList then extractTlmConnect node parentId
  else if name = "set".toList then extractConfigDbSet node parentId
  else if name = "get".toList then extractConfigDbGet node parentId
  else if name = "create".toList then extractFactoryCreate node parentId
  else if name = "set_type_override".toList ∨ name = "set_inst_override".toList then
    extractFactoryOverride node parentId
  else return ()

def methodCallOutline (node : Cst) : List Outline :=
  let name := methodName node
  if name = "connect".toList then tlmConnectOutline node
  else if name = "set".toList then configDbSetOutline node
  else if name = "get".toList then configDbGetOutline node
  else if name = "create".toList then factoryCreateOutline node
  else if name = "set_type_override".toList
    ∨ name = "set_inst_override".toList then factoryOverrideOutline node
  else []

theorem extractMethodCall_eq (node : Cst) (parentId : NodeId)
    : extractMethodCall node parentId = emitAll parentId (methodCallOutline node) := by
  unfold extractMethodCall methodCallOutline
  dsimp only
  repeat' split
  . rfl
  . apply extractConfigDbSet_eq
  . apply extractConfigDbGet_eq
  . apply extractFactoryCreate_eq
  . apply extractFactoryOverride_eq
  . rfl

def tfCallChild (name : List Text × Text) (child : Cst) : List Text × Text :=
  let (scope, methodName) := name
  match child.kind with
  | .packageScope =>
    let cleaned := trim (trimEndChar ':' child.text)
    if cleaned ≠ [] then (scope ++ [cleaned], methodName) else (scope, methodName)
  | .simpleIdentifier | .escapedIdentifier => (scope, child.text)
  | _ => (scope, methodName)

def extractTfCallName (node : Cst) : List Text × Text := node.children.foldl tfCallChild ([], [])

def extractTfCall (node : Cst) (parentId : NodeId) : ExtractM Unit :=
  let (scopeFragments, methodName) := extractTfCallName node
  if methodName = [] then return ()
  else if methodName = "create".toList then
    if scopeFragments.getLast? = some "type_id".toList then
      extractFactoryCreateViaTf node scopeFragments parentId
    else return ()
  else if methodName = "set_type_override".toList ∨ methodName = "set_inst_override".toList then
    extractFactoryOverrideViaTf node scopeFragments parentId
  else if methodName = "set".toList then extractConfigDbSet node parentId
  else if methodName = "get".toList then extractConfigDbGet node parentId
  else return ()

def tfCallOutline (node : Cst) : List Outline :=
  let (scopeFragments, methodName) := extractTfCallName node
  if methodName = [] then []
  else if methodName = "create".toList then
    if scopeFragments.getLast? = some "type_id".toList then
      factoryCreateViaTfOutline node scopeFragments
    else []
  else if methodName = "set_type_override".toList ∨ methodName = "set_inst_override".toList then
    factoryOverrideViaTfOutline node scopeFragments
  else if methodName = "set".toList then configDbSetOutline node
  else if methodName = "get".toList then configDbGetOutline node
  else []

theorem extractTfCall_eq (node : Cst) (parentId : NodeId)
    : extractTfCall node parentId = emitAll parentId (tfCallOutline node) := by
  unfold extractTfCall tfCallOutline
  dsimp only
  repeat' split
  . rfl
  . apply extractFactoryCreateViaTf_eq
  . rfl
  . apply extractFactoryOverrideViaTf_eq
  . apply extractConfigDbSet_eq
  . apply extractConfigDbGet_eq
  . rfl

mutual

def extractMethodCallsInSubtree (node : Cst) (parentId : NodeId) : ExtractM Unit :=
  match node with
  | .node _ _ _ _ children => extractMethodCallsIn children parentId

def extractMethodCallsIn (children : List Cst) (parentId : NodeId) : ExtractM Unit :=
  match children with
  | [] => return ()
  | child :: rest => do
    match child.kind with
    | .methodCall => extractMethodCall child parentId
    | .tfCall => extractTfCall child parentId
    | _ => extractMethodCallsInSubtree child parentId
    extractMethodCallsIn rest parentId

end

mutual

def methodCallsOutline : Cst → List Outline
  | .node _ _ _ _ children => methodCallsInOutline children

def methodCallsInOutline : List Cst → List Outline
  | [] => []
  | child :: rest =>
    (match child.kind with
    | .methodCall => methodCallOutline child
    | .tfCall => tfCallOutline child
    | _ => methodCallsOutline child)
      ++ methodCallsInOutline rest

end

mutual

theorem extractMethodCallsInSubtree_eq (parentId : NodeId)
    : (node : Cst) →
        extractMethodCallsInSubtree node parentId = emitAll parentId (methodCallsOutline node)
  | .node _ _ _ _ children => by
    simp only [extractMethodCallsInSubtree, methodCallsOutline]
    apply extractMethodCallsIn_eq

theorem extractMethodCallsIn_eq (parentId : NodeId)
    : (children : List Cst) →
      extractMethodCallsIn children parentId = emitAll parentId (methodCallsInOutline children)
  | [] => by simp only [extractMethodCallsIn, methodCallsInOutline, emitAll_nil]
  | child :: rest => by
    rw [extractMethodCallsIn, methodCallsInOutline, emitAll_append, extractMethodCallsIn_eq]
    split
    . rw [extractMethodCall_eq]
    . rw [extractTfCall_eq]
    . rw [extractMethodCallsInSubtree_eq]

end

end GraphExtractor
end HdlGraph
