import HdlGraph.Parse.Extractor.DeclaredNames
import HdlGraph.Parse.Extractor.Module

/-!
This module contains what decides whether a declaration declares TLM ports: in a module the text of
the whole declaration, in a generate block and in a class nothing.
-/

namespace HdlGraph

open ExtractM Text

/-! ## Declarations of variables with a type -/

namespace Cst

/-- The text of each node contains the texts of its children. -/
inductive Spans : Cst → Prop where
  | node {kind : SyntaxKind} {fields : List FieldName} {text : Text} {pos : Position}
      {children : List Cst}
    (htext : ∀ child ∈ children, child.text <:+: text) (hchildren : ∀ child ∈ children, Spans child)
    : Spans (.node kind fields text pos children)

theorem spans_iff {kind : SyntaxKind} {fields : List FieldName} {text : Text} {pos : Position}
    {children : List Cst}
    : Spans (.node kind fields text pos children)
        ↔ ∀ child ∈ children, child.text <:+: text ∧ Spans child := by
  constructor
  . rintro (⟨htext, hchildren⟩)
    exact fun child hchild => ⟨htext child hchild, hchildren child hchild⟩
  . intro h
    exact .node (fun child hchild => (h child hchild).1) (fun child hchild => (h child hchild).2)

/-- The type has the name `name`, whatever its parameters, its scope and its dimensions. -/
inductive NamesType (name : Text) : Cst → Prop where
  | name {node : Cst}
    (hkind : node.kind = .simpleIdentifier ∨ node.kind = .escapedIdentifier
      ∨ node.kind = .integerVectorType
      ∨ node.kind = .integerAtomType ∨ node.kind = .nonIntegerType)
    (htext : node.text = name)
    : NamesType name node
  | inside {node child : Cst}
    (hkind : node.kind = .dataTypeOrImplicit ∨ node.kind = .dataType ∨ node.kind = .classType
      ∨ node.kind = .psClassIdentifier)
    (hmem : child ∈ node.children) (hchild : NamesType name child)
    : NamesType name node

/--
A declaration of variables of one type: a `variable_decl_assignment` with a name for each of them
-/
structure IsTyped (typeName : Text) (names : List Text) (node : Cst) : Prop where
  kind : node.kind = .dataDeclaration
  spans : node.Spans
  names_ne_nil : names ≠ []
  children : ∃ head type list tail, node.children = head ++ type :: list :: tail
    ∧ type.kind = .dataTypeOrImplicit ∧ type.NamesType typeName
    ∧ list.kind = .listOfVariableDeclAssignments
    ∧ names.Forall₂
      (fun name assignment => (assignment.childByFieldName .name).map text = some name)
      (list.children.filter (·.kind = .variableDeclAssignment))
    ∧ ∀ other ∈ head ++ tail, other.kind ≠ .dataTypeOrImplicit
      ∧ other.kind ≠ .listOfVariableDeclAssignments

end Cst

namespace GraphExtractor

/-! ## The keywords in the text of a declaration -/

def tlmKeywords : List (Text × TLMDirection) := [
  ("uvm_analysis_port".toList, .analysisPort),
  ("uvm_analysis_imp".toList, .analysisExport),
  ("uvm_analysis_export".toList, .analysisExport),
  ("uvm_blocking".toList, .blocking),
  ("uvm_nonblocking".toList, .nonblocking),
  ("uvm_tlm_fifo".toList, .fifo)]

def NoKeyword (text : Text) : Prop := ∀ entry ∈ tlmKeywords, ¬entry.1 <:+: text

-- The first of the keywords that the text contains is one for the direction
def FirstKeyword (text : Text) (direction : TLMDirection) : Prop :=
  ∃ before keyword after, tlmKeywords = before ++ (keyword, direction) :: after ∧ keyword <:+: text
    ∧ ∀ entry ∈ before, ¬entry.1 <:+: text

theorem tlmDirectionFromTypeName_eq (text : Text)
    : tlmDirectionFromTypeName text = (tlmKeywords.find? fun entry => contains text entry.1).map
        Prod.snd := by
  simp only [tlmDirectionFromTypeName, tlmKeywords, List.find?_cons, List.find?_nil]
  cases contains text "uvm_analysis_port".toList <;> try rfl
  cases contains text "uvm_analysis_imp".toList <;> try rfl
  cases contains text "uvm_analysis_export".toList <;> try rfl
  cases contains text "uvm_blocking".toList <;> try rfl
  cases contains text "uvm_nonblocking".toList <;> try rfl
  cases contains text "uvm_tlm_fifo".toList <;> rfl

theorem tlmDirectionFromTypeName_eq_none_iff (text : Text) : tlmDirectionFromTypeName text = none
    ↔ NoKeyword text := by
  simp only [tlmDirectionFromTypeName_eq, Option.map_eq_none_iff, List.find?_eq_none,
    contains_iff, NoKeyword]

theorem tlmDirectionFromTypeName_eq_some_iff (text : Text) (direction : TLMDirection)
    : tlmDirectionFromTypeName text = some direction ↔ FirstKeyword text direction := by
  rw [tlmDirectionFromTypeName_eq, Option.map_eq_some_iff]
  simp only [List.find?_eq_some_iff_append, contains_iff, FirstKeyword]
  constructor
  . rintro ⟨⟨keyword, _⟩, ⟨hkeyword, before, after, heq, hbefore⟩, rfl⟩
    refine ⟨before, keyword, after, heq, hkeyword, ?_⟩
    intro entry hentry
    rw [← contains_iff]
    simpa using hbefore entry hentry
  . rintro ⟨before, keyword, after, heq, hkeyword, hbefore⟩
    refine ⟨(keyword, direction), ⟨hkeyword, before, after, heq, ?_⟩, rfl⟩
    intro entry hentry
    simpa [← contains_iff] using hbefore entry hentry

theorem NoKeyword.mono {text sub : Text} (h : NoKeyword text) (hsub : sub <:+: text)
    : NoKeyword sub :=
  fun entry hentry hoccurs => h entry hentry (List.IsInfix.trans hoccurs hsub)

theorem NoKeyword.typeName {text : Text} (h : NoKeyword text)
    : tlmDirectionFromTypeName text = none :=
  (tlmDirectionFromTypeName_eq_none_iff text).mpr h

mutual

theorem tlmDirectionFromDataType_eq_none
    : (node : Cst) → node.Spans → NoKeyword node.text → tlmDirectionFromDataType node = none
  | .node _ _ text _ children, .node htext hchildren, h => by
    rw [tlmDirectionFromDataType]
    exact tlmDirectionFromChildren_eq_none text children htext hchildren h

theorem tlmDirectionFromChildren_eq_none (text : Text)
    : (children : List Cst) → (∀ child ∈ children, child.text <:+: text) →
        (∀ child ∈ children, child.Spans) →
      NoKeyword text → tlmDirectionFromChildren text children = none
  | [], _, _, h => by
    rw [tlmDirectionFromChildren]
    exact h.typeName
  | child :: rest, htext, hspans, h => by
    rw [List.forall_mem_cons] at htext hspans
    have hchild : NoKeyword child.text := h.mono htext.1
    have hrest := tlmDirectionFromChildren_eq_none text rest htext.2 hspans.2 h
    have hdataType := tlmDirectionFromDataType_eq_none child hspans.1 hchild
    have hclassType : tlmDirectionFromClassType child = none := by
      cases hspans.1 with
      | node hinner _ =>
        rw [tlmDirectionFromClassType, List.findSome?_eq_none_iff]
        intro gc hgc
        have := (hchild.mono (hinner gc hgc)).typeName
        split <;> simp [this]
    rw [tlmDirectionFromChildren]
    split
    . exact hdataType
    . exact hdataType
    . rw [hclassType, hrest]
      rfl
    . rw [hchild.typeName, hrest]
      rfl
    . exact hrest

end

theorem detectTlmPort_eq {node : Cst} (h : node.Spans)
    : detectTlmPort node = tlmDirectionFromTypeName node.text := by
  unfold detectTlmPort
  cases htext : tlmDirectionFromTypeName node.text with
  | some direction => rfl
  | none =>
    have hno := (tlmDirectionFromTypeName_eq_none_iff node.text).mp htext
    cases h with
    | node hinner hspans =>
      refine List.findSome?_eq_none_iff.mpr ?_
      intro child hchild
      split
      . exact tlmDirectionFromDataType_eq_none child (hspans child hchild)
          (hno.mono (hinner child hchild))
      . rfl

/-! ## Where a declaration stands -/

inductive DeclarationContext where
  | moduleBody
  | generateBlock
  | classProperty (property : Cst)

namespace DeclarationContext

def Encloses : DeclarationContext → Cst → Prop
  | classProperty property, node => node.IsPropertyOf property
  | _, _ => True

def extract : DeclarationContext → Cst → NodeId → ExtractM Unit
  | moduleBody, node, parentId => extractModuleChild node parentId
  | generateBlock, node, parentId => extractGenerateItems [node] parentId
  | classProperty property, _, parentId => extractClassProperty property parentId

def outline : DeclarationContext → Cst → List Outline
  | moduleBody, node => declarationOutline node
  | generateBlock, node => signalOutline node
  | classProperty _, node => propertiesOutline node ++ factoryRegistrationOutline node

theorem extract_eq {context : DeclarationContext} {node : Cst}
    (hkind : node.kind = .dataDeclaration) (h : context.Encloses node) (parentId : NodeId)
    : context.extract node parentId = emitAll parentId (context.outline node) := by
  cases context with
  | moduleBody =>
    rw [extract, extractModuleChild_eq, moduleChildOutline, hkind]
    rfl
  | generateBlock =>
    rw [extract, extractGenerateItems_eq, generateItemsOutline, generateItemsOutline, hkind,
      List.append_nil]
    rfl
  | classProperty property =>
    rw [extract, extractClassProperty_eq, classPropertyOutline_eq h]
    rfl

end DeclarationContext

def tlmPort : NodeKind Text → Option (Text × TLMDirection)
  | .tlmPort name direction => some (name, direction)
  | _ => none

def ordinary : NodeKind Text → Option Text
  | .signalDecl name _ | .property name => some name
  | _ => none

/--
A declaration whose type has a direction gives a port for each variable, with this direction, and
one whose type has none gives no port but the signals or properties that are collected from it.
-/
def Recognises (names : List Text) (node : Cst) (kinds : List (NodeKind Text))
    : Option TLMDirection → Prop
  | some direction => kinds.filterMap tlmPort = names.map (·, direction)
  | none => kinds.filterMap tlmPort = [] ∧ kinds.filterMap ordinary = collectSignalNames node

def RecognisedByType (tlmType : Text → Option TLMDirection) (context : DeclarationContext)
    (typeName : Text) (names : List Text) (node : Cst) (parentId : NodeId) (s : ExtractState)
    : Prop :=
  Recognises names node (recorded (context.extract node parentId) s) (tlmType typeName)

/--
In a module the first keyword in the text of the declaration is one for the direction of the type,
and there is none if the type is not of TLM; elsewhere the type is not of TLM.
-/
def TypeDecides (tlmType : Text → Option TLMDirection) (context : DeclarationContext)
    (typeName : Text) (node : Cst) : Prop :=
  match context with
  | .moduleBody =>
    (∀ direction, tlmType typeName = some direction → FirstKeyword node.text direction)
      ∧ (tlmType typeName = none → NoKeyword node.text)
  | _ => tlmType typeName = none

/-! ## What is recorded -/

def kindsOf (os : List Outline) : List (NodeKind Text) := (Rose.labelsAll os).map Declared.kind

theorem kindsOf_append (os os' : List Outline)
    : kindsOf (os ++ os') = kindsOf os ++ kindsOf os' := by
  rw [kindsOf, Rose.labelsAll_append, List.map_append]
  rfl

theorem kindsOf_signalOutline (node : Cst)
    : kindsOf (signalOutline node) = (collectSignalNames node).map fun name =>
        .signalDecl name (detectSignalKind node) := by
  rw [kindsOf, signalOutline, Rose.labelsAll_flatMap, List.map_flatMap, List.map_eq_flatMap]
  rfl

theorem kindsOf_propertiesOutline (node : Cst)
    : kindsOf (propertiesOutline node) = (collectSignalNames node).map .property := by
  rw [kindsOf, propertiesOutline, Rose.labelsAll_flatMap, List.map_flatMap, List.map_eq_flatMap]
  rfl

theorem kindsOf_factoryRegistrationOutline (node : Cst)
    : (kindsOf (factoryRegistrationOutline node)).filterMap tlmPort = []
        ∧ (kindsOf (factoryRegistrationOutline node)).filterMap ordinary = [] := by
  unfold factoryRegistrationOutline
  split <;> exact ⟨rfl, rfl⟩

theorem kindsOf_tlmVariablesOutline {names : List Text} {list : Cst}
    (h : names.Forall₂
      (fun name assignment => (assignment.childByFieldName .name).map Cst.text = some name)
      (list.children.filter (·.kind = .variableDeclAssignment)))
    (direction : TLMDirection)
    : kindsOf (tlmVariablesOutline list direction) = names.map fun name =>
        .tlmPort name direction := by
  rw [tlmVariablesOutline]
  generalize list.children = children at h
  induction children generalizing names with
  | nil =>
    cases h
    rfl
  | cons child children ih =>
    by_cases hkind : child.kind = .variableDeclAssignment
    . rw [List.filter_cons_of_pos (by simpa using hkind)] at h
      cases h with
      | cons hname hrest =>
        obtain ⟨nameNode, hnode, rfl⟩ := Option.map_eq_some_iff.mp hname
        rw [List.flatMap_cons, if_pos hkind, hnode, kindsOf_append, ih hrest, List.map_cons]
        rfl
    . rw [List.filter_cons_of_neg (by simpa using hkind)] at h
      rw [List.flatMap_cons, if_neg hkind, List.nil_append]
      exact ih h

theorem kindsOf_tlmPortOutline {typeName : Text} {names : List Text} {node : Cst}
    (h : node.IsTyped typeName names) {direction : TLMDirection}
    (hdetect : detectTlmPort node = some direction)
    : kindsOf (tlmPortOutline node) = names.map fun name => .tlmPort name direction := by
  obtain ⟨head, type, list, tail, hchildren, htype, _, hlist, hnames, hothers⟩ := h.children
  have hnil : ∀ nodes : List Cst, (∀ other ∈ nodes, other.kind ≠ .listOfVariableDeclAssignments)
      → (nodes.flatMap fun child =>
          if child.kind = .listOfVariableDeclAssignments then tlmVariablesOutline child direction
            else []) = [] := by
    intro nodes hnodes
    exact List.flatMap_eq_nil_iff.mpr fun child hchild => if_neg (hnodes child hchild)
  have hhead := hnil head fun other hother => (hothers other (List.mem_append_left _ hother)).2
  have htail := hnil tail fun other hother => (hothers other (List.mem_append_right _ hother)).2
  rw [tlmPortOutline, hdetect]
  dsimp only
  rw [hchildren, List.flatMap_append, List.flatMap_cons, List.flatMap_cons, hhead, htail,
    if_neg (by simp [htype]), if_pos hlist, List.nil_append, List.nil_append, List.append_nil]
  exact kindsOf_tlmVariablesOutline hnames direction

section Typed

variable {typeName : Text} {names : List Text} {node : Cst} {context : DeclarationContext}
  {parentId : NodeId} {s : ExtractState}

theorem recorded_extract (h : node.IsTyped typeName names) (hcontext : context.Encloses node)
    : recorded (context.extract node parentId) s = kindsOf (context.outline node) := by
  rw [DeclarationContext.extract_eq h.kind hcontext, recorded_emitAll, kindsOf]

theorem filterMap_signals (xs : List Text) (kind : SignalKind)
    : (xs.map fun name => NodeKind.signalDecl name kind).filterMap tlmPort = []
        ∧ (xs.map fun name => NodeKind.signalDecl name kind).filterMap ordinary = xs := by
  constructor
  . simp [tlmPort]
  . rw [List.filterMap_map]
    exact List.filterMap_some

theorem filterMap_properties (xs : List Text)
    : (xs.map NodeKind.property).filterMap tlmPort = []
        ∧ (xs.map NodeKind.property).filterMap ordinary = xs := by
  constructor
  . simp [tlmPort]
  . rw [List.filterMap_map]
    exact List.filterMap_some

theorem recorded_moduleBody (h : node.IsTyped typeName names)
    : (kindsOf (declarationOutline node)).filterMap tlmPort
          = ((tlmDirectionFromTypeName node.text).map fun direction =>
            names.map (·, direction)).getD []
        ∧ (tlmDirectionFromTypeName node.text = none
          → (kindsOf (declarationOutline node)).filterMap ordinary = collectSignalNames node) := by
  have hregistration := kindsOf_factoryRegistrationOutline node
  rw [declarationOutline, kindsOf_append, List.filterMap_append, List.filterMap_append,
    hregistration.1, hregistration.2, List.append_nil, List.append_nil, ← detectTlmPort_eq h.spans]
  cases hdetect : detectTlmPort node with
  | some direction =>
    rw [Option.isSome_some, if_pos rfl, kindsOf_tlmPortOutline h hdetect]
    simp [tlmPort, Function.comp_def]
  | none =>
    have hsignals := filterMap_signals (collectSignalNames node) (detectSignalKind node)
    rw [if_neg (by simp), kindsOf_signalOutline]
    exact ⟨hsignals.1, fun _ => hsignals.2⟩

theorem recorded_elsewhere (hcontext : context ≠ .moduleBody)
    : (kindsOf (context.outline node)).filterMap tlmPort = []
        ∧ (kindsOf (context.outline node)).filterMap ordinary = collectSignalNames node := by
  cases context with
  | moduleBody => exact absurd rfl hcontext
  | generateBlock =>
    rw [DeclarationContext.outline, kindsOf_signalOutline]
    exact filterMap_signals _ _
  | classProperty property =>
    have hproperties := filterMap_properties (collectSignalNames node)
    have hregistration := kindsOf_factoryRegistrationOutline node
    rw [DeclarationContext.outline, kindsOf_append, kindsOf_propertiesOutline,
      List.filterMap_append, List.filterMap_append, hproperties.1, hproperties.2, hregistration.1,
      hregistration.2, List.append_nil, List.append_nil]
    exact ⟨rfl, rfl⟩

end Typed

theorem recognises_moduleBody_iff {typeName : Text} {names : List Text} {node : Cst}
    (h : node.IsTyped typeName names) (expected : Option TLMDirection)
    : Recognises names node (kindsOf (declarationOutline node)) expected
        ↔
      tlmDirectionFromTypeName node.text = expected := by
  obtain ⟨hports, hordinary⟩ := recorded_moduleBody h
  obtain ⟨name, names, rfl⟩ := List.exists_cons_of_ne_nil h.names_ne_nil
  cases expected with
  | some direction =>
    rw [Recognises, hports]
    cases tlmDirectionFromTypeName node.text with
    | none => simp
    | some found => simp +contextual [iff_def]
  | none =>
    rw [Recognises, hports]
    cases hfound : tlmDirectionFromTypeName node.text with
    | none => simpa using hordinary hfound
    | some found => simp

theorem recognises_elsewhere_iff {typeName : Text} {names : List Text} {node : Cst}
    (h : node.IsTyped typeName names) {context : DeclarationContext}
    (hcontext : context ≠ .moduleBody) (expected : Option TLMDirection)
    : Recognises names node (kindsOf (context.outline node)) expected ↔ expected = none := by
  have helsewhere : (kindsOf (context.outline node)).filterMap tlmPort = [] ∧ _ :=
    recorded_elsewhere hcontext
  obtain ⟨hports, hordinary⟩ := helsewhere
  obtain ⟨name, names, rfl⟩ := List.exists_cons_of_ne_nil h.names_ne_nil
  cases expected with
  | some direction => simp [Recognises, hports]
  | none => simp [Recognises, hports, hordinary]

theorem directionFromText_eq_iff (text : Text) (expected : Option TLMDirection)
    : tlmDirectionFromTypeName text = expected
        ↔
      (∀ direction, expected = some direction → FirstKeyword text direction)
      ∧ (expected = none → NoKeyword text) := by
  cases expected with
  | none => simp [tlmDirectionFromTypeName_eq_none_iff]
  | some direction => simp [tlmDirectionFromTypeName_eq_some_iff]

theorem recognisedByType_iff {tlmType : Text → Option TLMDirection} {typeName : Text}
    {names : List Text} {node : Cst} (h : node.IsTyped typeName names)
    {context : DeclarationContext} (hcontext : context.Encloses node) (parentId : NodeId)
    (s : ExtractState)
    : RecognisedByType tlmType context typeName names node parentId s
        ↔ TypeDecides tlmType context typeName node := by
  rw [RecognisedByType, recorded_extract h hcontext]
  cases context with
  | moduleBody => exact (recognises_moduleBody_iff h _).trans (directionFromText_eq_iff node.text _)
  | generateBlock => exact recognises_elsewhere_iff h DeclarationContext.noConfusion _
  | classProperty property => exact recognises_elsewhere_iff h DeclarationContext.noConfusion _

section Examples

def uvmTlmType (name : Text) : Option TLMDirection :=
  let interfaces :=
    ["put", "get", "peek", "get_peek", "transport", "master", "slave"].flatMap fun interface =>
    ["_port", "_export", "_imp"].map fun role => interface.toList ++ role.toList
  if name = "uvm_analysis_port".toList then some .analysisPort
  else if name = "uvm_analysis_export".toList
    ∨ name = "uvm_analysis_imp".toList then some .analysisExport
  else if name = "uvm_tlm_fifo".toList ∨ name = "uvm_tlm_analysis_fifo".toList then some .fifo
  else if (interfaces.map ("uvm_blocking_".toList ++ ·)).contains name then some .blocking
  else if (interfaces.map ("uvm_nonblocking_".toList ++ ·)).contains name then some .nonblocking
  else none

def analysisPort : Cst :=
  let name := UvmCall.token .simpleIdentifier [] "uvm_analysis_port".toList
  let text := "uvm_analysis_port #(txn)".toList
  .node .dataDeclaration [] "uvm_analysis_port #(txn) ap;".toList ⟨0, 0⟩ [
    .node .dataTypeOrImplicit [] text ⟨0, 0⟩ [
      .node .dataType [] text ⟨0, 0⟩ [
        .node .classType [] text ⟨0, 0⟩ [
          .node .psClassIdentifier [] name.text ⟨0, 0⟩ [name],
          UvmCall.token .parameterValueAssignment [] "#(txn)".toList]]],
    .node .listOfVariableDeclAssignments [] "ap".toList ⟨0, 25⟩ [
      .node .variableDeclAssignment [] "ap".toList ⟨0, 25⟩
      [UvmCall.token .simpleIdentifier [.name] "ap".toList]],
    UvmCall.token .semicolon [] ";".toList]

theorem spans_analysisPort : analysisPort.Spans := by
  simp only [analysisPort, UvmCall.token, Cst.spans_iff, List.forall_mem_cons, List.not_mem_nil,
    false_implies, implies_true, and_true, Cst.text]
  decide

theorem isTyped_analysisPort : analysisPort.IsTyped "uvm_analysis_port".toList ["ap".toList] where
  kind := rfl
  spans := spans_analysisPort
  names_ne_nil := by decide
  children := by
    refine ⟨[], _, _, [_], rfl, rfl, ?_, rfl, .cons rfl .nil, ?_⟩
    . refine .inside (Or.inl rfl) List.mem_cons_self ?_
      refine .inside (Or.inr (Or.inl rfl)) List.mem_cons_self ?_
      refine .inside (Or.inr (Or.inr (Or.inl rfl))) List.mem_cons_self ?_
      refine .inside (Or.inr (Or.inr (Or.inr rfl))) List.mem_cons_self ?_
      exact .name (Or.inl rfl) rfl
    . intro other hother
      rw [List.mem_singleton.mp hother]
      decide

theorem recognisedByType_analysisPort
    : RecognisedByType uvmTlmType .moduleBody "uvm_analysis_port".toList ["ap".toList] analysisPort
        1 ⟨.new, [], []⟩ := by
  have hcontext : DeclarationContext.moduleBody.Encloses analysisPort := trivial
  refine (recognisedByType_iff isTyped_analysisPort hcontext 1 _).mpr ⟨?_, ?_⟩
  . intro direction hdirection
    cases hdirection
    exact ⟨[], _, _, rfl, by decide, by simp⟩
  . intro hnone
    cases hnone

def analysisPortProperty : DeclarationContext :=
  .classProperty (.node .classProperty [] analysisPort.text ⟨0, 0⟩ [analysisPort])

-- In a class it becomes a property
theorem not_recognisedByType_analysisPort
    : ¬RecognisedByType uvmTlmType analysisPortProperty "uvm_analysis_port".toList ["ap".toList]
        analysisPort 1
        ⟨.new, [], []⟩ := by
  have hcontext : analysisPortProperty.Encloses analysisPort := ⟨rfl, rfl, [], rfl, by simp⟩
  rw [RecognisedByType, recorded_extract isTyped_analysisPort hcontext]
  intro h
  cases (recognises_elsewhere_iff isTyped_analysisPort DeclarationContext.noConfusion _).mp h

end Examples

end GraphExtractor
end HdlGraph
