import HdlGraph.Parse.Extractor.Class
import HdlGraph.Parse.Extractor.UvmCalls
import HdlGraph.Parse.Subtrees

/-!
This module contains the names that a declaration declares and those that are collected from it: the
collector takes every identifier that does not stand below one of the kinds it skips.
-/

namespace HdlGraph

open ExtractM

def isIdentifier (kind : SyntaxKind) : Bool := kind = .simpleIdentifier || kind = .escapedIdentifier

def isSkipped : SyntaxKind → Bool
  | .dataTypeOrImplicit | .implicitDataType | .dataType
  | .netType | .integerVectorType | .integerAtomType
  | .nonIntegerType | .signing | .delay3 | .delayControl
  | .delayValue | .driveStrength | .chargeStrength
  | .unpackedDimension | .constantExpression | .constantMintypmaxExpression
  | .parameterValueAssignment | .orderedParameterAssignment
  | .namedParameterAssignment => true
  | _ => false

namespace GraphExtractor

mutual

theorem collectSignalNames_eq
    : (node : Cst) → collectSignalNames node = (node.reached isIdentifier isSkipped).map Cst.text
  | .node _ _ _ _ children => by
    rw [collectSignalNames, Cst.reached]
    exact collectSignalNamesIn_eq children

theorem collectSignalNamesIn_eq
    : (children : List Cst) →
      collectSignalNamesIn children = (Cst.reachedAll isIdentifier isSkipped children).map Cst.text
  | [] => by simp [collectSignalNamesIn]
  | child :: rest => by
    rw [collectSignalNamesIn, Cst.reachedAll_cons, collectSignalNamesIn_eq rest,
      collectSignalNames_eq child, List.map_append]
    congr 1
    generalize child.kind = kind
    cases kind <;> rfl

end

end GraphExtractor

/-! ## Declarations -/

namespace Cst

-- A name with what follows it: its dimensions and its initialiser
def IsDeclarator (name : Text) (others nodes : List Cst) : Prop :=
  ∃ nameNode, nodes = nameNode :: others ∧ isIdentifier nameNode.kind ∧ nameNode.text = name

-- A `variable_decl_assignment` or a `net_decl_assignment`
def IsAssignment (name : Text) (others : List Cst) (node : Cst) : Prop :=
  (node.kind = .variableDeclAssignment ∨ node.kind = .other)
  ∧ IsDeclarator name others node.children

/-- Assignments with commas between them, and what is in them besides the names -/
inductive IsAssignmentList : List Text → List Cst → List Cst → Prop where
  | last {name : Text} {others : List Cst} {node : Cst} (h : IsAssignment name others node)
    : IsAssignmentList [name] others [node]
  | cons {name : Text} {others : List Cst} {node comma : Cst} {names : List Text}
      {others' nodes : List Cst}
    (h : IsAssignment name others node) (hcomma : comma.IsToken .comma ",".toList)
    (hrest : IsAssignmentList names others' nodes)
    : IsAssignmentList (name :: names) (others ++ others') (node :: comma :: nodes)

/-- Names with their dimensions right in the declaration, as an `interconnect` has them -/
inductive IsInlineList : List Text → List Cst → List Cst → Prop where
  | last {name : Text} {others nodes : List Cst} (h : IsDeclarator name others nodes) : IsInlineList
      [name] others nodes
  | cons {name : Text} {others nodes : List Cst} {comma : Cst} {names : List Text}
      {others' nodes' : List Cst}
    (h : IsDeclarator name others nodes) (hcomma : comma.IsToken .comma ",".toList)
    (hrest : IsInlineList names others' nodes')
    : IsInlineList (name :: names) (others ++ others') (nodes ++ comma :: nodes')

/--
A declaration of `names`. The other nodes in it are what stands before and behind the list of the
names (keywords, the type, strengths and delays) and the dimensions and initialisers of the names.
-/
inductive IsDeclaration (names : List Text) (others : List Cst) (node : Cst) : Prop where
  | list (head : List Cst) (list : Cst) (inner tail : List Cst)
    (hkind : node.kind = .netDeclaration ∨ node.kind = .dataDeclaration)
    (hchildren : node.children = head ++ list :: tail)
    (hlist : list.kind = .listOfVariableDeclAssignments ∨ list.kind = .other)
    (hnames : IsAssignmentList names inner list.children)
    (hothers : others = head ++ inner ++ tail)
  | interconnect (head inline inner tail : List Cst)
    (hkind : node.kind = .netDeclaration)
    (hchildren : node.children = head ++ inline ++ tail)
    (hnames : IsInlineList names inner inline)
    (hothers : others = head ++ inner ++ tail)

/-- A `class_property` with the declaration: its qualifiers, and the declaration last -/
structure IsPropertyOf (declaration property : Cst) : Prop where
  declared : declaration.kind = .dataDeclaration
  kind : property.kind = .classProperty
  children : ∃ qualifiers, property.children = qualifiers ++ [declaration]
    ∧ ∀ qualifier ∈ qualifiers, qualifier.kind ≠ .dataDeclaration

end Cst

/-! ## What is collected -/

namespace GraphExtractor

/-- From `nodes` the names are collected, and what is collected from `others`. -/
structure CollectsNames (names : List Text) (others nodes : List Cst) : Prop where
  length : (Cst.reachedAll isIdentifier isSkipped nodes).length
    = names.length + (Cst.reachedAll isIdentifier isSkipped others).length
  names : Cst.reachedAll isIdentifier isSkipped others = []
    → (Cst.reachedAll isIdentifier isSkipped nodes).map Cst.text = names

namespace CollectsNames

theorem others (nodes : List Cst) : CollectsNames [] nodes nodes where
  length := by simp
  names h := by simp [h]

theorem append {names names' : List Text} {others others' nodes nodes' : List Cst}
    (h : CollectsNames names others nodes) (h' : CollectsNames names' others' nodes')
    : CollectsNames (names ++ names') (others ++ others') (nodes ++ nodes') where
  length := by
    simp only [Cst.reachedAll_append, List.length_append, h.length, h'.length]
    omega
  names hnil := by
    rw [Cst.reachedAll_append, List.append_eq_nil_iff] at hnil
    rw [Cst.reachedAll_append, List.map_append, h.names hnil.1, h'.names hnil.2]

theorem node {names : List Text} {others : List Cst} {node : Cst}
    (hfound : isIdentifier node.kind = false) (hskipped : isSkipped node.kind = false)
    (h : CollectsNames names others node.children)
    : CollectsNames names others [node] := by
  have hreached : Cst.reachedAll isIdentifier isSkipped [node]
      = Cst.reachedAll isIdentifier isSkipped node.children := by
    simp [hfound, hskipped, Cst.reached_eq]
  exact ⟨hreached ▸ h.length, hreached ▸ h.names⟩

theorem token {kind : SyntaxKind} {text : Text} {node : Cst} (h : node.IsToken kind text)
    (hfound : isIdentifier kind = false) (hskipped : isSkipped kind = false)
    : CollectsNames [] [] [node] := by
  refine .node (h.1 ▸ hfound) (h.1 ▸ hskipped) ?_
  rw [h.2.2]
  exact .others []

theorem declarator {name : Text} {others nodes : List Cst} (h : Cst.IsDeclarator name others nodes)
    : CollectsNames [name] others nodes := by
  obtain ⟨nameNode, rfl, hkind, rfl⟩ := h
  constructor
  . simp only [Cst.reachedAll_cons, hkind, if_true, List.length_append, List.length_singleton]
  . intro hnil
    simp [hkind, hnil]

theorem assignment {name : Text} {others : List Cst} {node : Cst}
    (h : Cst.IsAssignment name others node)
    : CollectsNames [name] others [node] := by
  obtain ⟨hkind | hkind, h⟩ := h
  . exact .node (hkind ▸ rfl) (hkind ▸ rfl) (.declarator h)
  . exact .node (hkind ▸ rfl) (hkind ▸ rfl) (.declarator h)

theorem assignmentList {names : List Text} {others nodes : List Cst}
    (h : Cst.IsAssignmentList names others nodes)
    : CollectsNames names others nodes := by
  induction h with
  | last h => exact .assignment h
  | cons h hcomma _ ih =>
    exact (CollectsNames.assignment h).append ((CollectsNames.token hcomma rfl rfl).append ih)

theorem inlineList {names : List Text} {others nodes : List Cst}
    (h : Cst.IsInlineList names others nodes)
    : CollectsNames names others nodes := by
  induction h with
  | last h => exact .declarator h
  | cons h hcomma _ ih =>
    exact (CollectsNames.declarator h).append ((CollectsNames.token hcomma rfl rfl).append ih)

theorem declaration {names : List Text} {others : List Cst} {node : Cst}
    (h : node.IsDeclaration names others)
    : CollectsNames names others node.children := by
  have around : ∀ {head inner middle tail : List Cst}, CollectsNames names inner middle
      → CollectsNames names (head ++ inner ++ tail) (head ++ middle ++ tail) := by
    intro head inner middle tail h
    simpa using ((CollectsNames.others head).append h).append (.others tail)
  cases h with
  | list head list inner tail _ hchildren hlist hnames hothers =>
    have hinner : CollectsNames names inner [list] := by
      obtain hkind | hkind := hlist
      . exact .node (hkind ▸ rfl) (hkind ▸ rfl) (.assignmentList hnames)
      . exact .node (hkind ▸ rfl) (hkind ▸ rfl) (.assignmentList hnames)
    rw [hchildren, hothers, List.append_cons]
    exact around hinner
  | interconnect head inline inner tail _ hchildren hnames hothers =>
    rw [hchildren, hothers]
    exact around (.inlineList hnames)

end CollectsNames

def propertyName : NodeKind Text → Option Text
  | .property name => some name
  | _ => none

/--
One name is collected, one signal and one property recorded for each of the names and none besides.
-/
structure DeclaresExactly (names : List Text) (node : Cst) : Prop where
  collected : collectSignalNames node = names
  signals : ∀ (moduleId : NodeId) (s : ExtractState),
    recorded (extractSignal node moduleId) s = names.map fun name =>
      .signalDecl name (detectSignalKind node)
  properties : ∀ (property : Cst), node.IsPropertyOf property →
    ∀ (classId : NodeId) (s : ExtractState),
    (recorded (extractClassProperty property classId) s).filterMap propertyName = names

theorem recorded_extractSignal (node : Cst) (moduleId : NodeId) (s : ExtractState)
    : recorded (extractSignal node moduleId) s
        =
      (collectSignalNames node).map fun name => .signalDecl name (detectSignalKind node) := by
  rw [extractSignal_eq, recorded_emitAll, signalOutline, Rose.labelsAll_flatMap, List.map_flatMap,
    List.map_eq_flatMap]
  rfl

theorem classPropertyOutline_eq {node property : Cst} (h : node.IsPropertyOf property)
    : classPropertyOutline property
        = propertiesOutline node ++ factoryRegistrationOutline node := by
  obtain ⟨qualifiers, hchildren, hqualifiers⟩ := h.children
  have hnil : (qualifiers.flatMap fun child =>
      if child.kind = .dataDeclaration then
        propertiesOutline child ++ factoryRegistrationOutline child else []) = [] :=
    List.flatMap_eq_nil_iff.mpr fun child hchild => if_neg (hqualifiers child hchild)
  rw [classPropertyOutline, hchildren, List.flatMap_append, hnil, List.nil_append,
    List.flatMap_singleton, if_pos h.declared]

theorem propertyName_extractClassProperty {node property : Cst} (h : node.IsPropertyOf property)
    (classId : NodeId) (s : ExtractState)
    : (recorded (extractClassProperty property classId) s).filterMap propertyName
        = collectSignalNames node := by
  have hproperties : ((Rose.labelsAll (propertiesOutline node)).map Declared.kind).filterMap
        propertyName
      = collectSignalNames node := by
    rw [propertiesOutline, Rose.labelsAll_flatMap]
    induction collectSignalNames node with
    | nil => rfl
    | cons name names ih =>
      rw [List.flatMap_cons, List.map_append, List.filterMap_append, ih]
      rfl
  have hregistration : ((Rose.labelsAll (factoryRegistrationOutline node)).map
      Declared.kind).filterMap propertyName = [] := by
    unfold factoryRegistrationOutline
    split <;> rfl
  rw [extractClassProperty_eq, recorded_emitAll, classPropertyOutline_eq h, Rose.labelsAll_append,
    List.map_append, List.filterMap_append, hproperties, hregistration, List.append_nil]

theorem declaresExactly_iff_collected (names : List Text) (node : Cst)
    : DeclaresExactly names node ↔ collectSignalNames node = names := by
  constructor
  . intro h
    exact h.collected
  . intro h
    refine ⟨h, ?_, ?_⟩
    . intro moduleId s
      rw [recorded_extractSignal, h]
    . intro property hproperty classId s
      rw [propertyName_extractClassProperty hproperty, h]

theorem declaresExactly_iff {names : List Text} {others : List Cst} {node : Cst}
    (h : node.IsDeclaration names others)
    : DeclaresExactly names node ↔ ∀ other ∈ others, ¬Cst.Exposed isIdentifier isSkipped other := by
  have hcollects := CollectsNames.declaration h
  rw [declaresExactly_iff_collected, ← Cst.reachedAll_eq_nil_iff, collectSignalNames_eq,
    Cst.reached_eq]
  constructor
  . intro hnames
    have hlength := hcollects.length
    rw [← hnames, List.length_map] at hlength
    exact List.eq_nil_of_length_eq_zero (by omega)
  . exact hcollects.names

section Examples

def logicDeclaration (value : Cst) : Cst :=
  .node .dataDeclaration [] ("logic a = ".toList ++ value.text ++ ";".toList) ⟨0, 0⟩ [
    UvmCall.token .dataTypeOrImplicit [] "logic".toList,
    .node .listOfVariableDeclAssignments [] ("a = ".toList ++ value.text) ⟨0, 6⟩ [
      .node .variableDeclAssignment [] ("a = ".toList ++ value.text) ⟨0, 6⟩ [
        UvmCall.token .simpleIdentifier [.name] "a".toList,
        UvmCall.token .other [] "=".toList,
        value]],
    UvmCall.token .semicolon [] ";".toList]

def logicOthers (value : Cst) : List Cst :=
  [UvmCall.token .dataTypeOrImplicit [] "logic".toList, UvmCall.token .other [] "=".toList, value,
    UvmCall.token .semicolon [] ";".toList]

theorem isDeclaration_logicDeclaration (value : Cst)
    : (logicDeclaration value).IsDeclaration ["a".toList] (logicOthers value) :=
  .list [_] _ [_, _] [_] (Or.inr rfl) rfl (Or.inl rfl) (.last ⟨Or.inl rfl, _, rfl, rfl, rfl⟩) rfl

theorem declaresExactly_number
    : DeclaresExactly ["a".toList] (logicDeclaration (UvmCall.token .expression [] "0".toList)) :=
  (declaresExactly_iff (isDeclaration_logicDeclaration _)).mpr
  (Cst.reachedAll_eq_nil_iff.mp (by decide))

-- `logic a = b;` declares `b` as well
theorem not_declaresExactly_identifier
    : ¬DeclaresExactly ["a".toList]
        (logicDeclaration
          (.node .expression [] "b".toList ⟨0, 10⟩
            [UvmCall.token .simpleIdentifier [] "b".toList])) := by
  rw [declaresExactly_iff_collected]
  decide

end Examples

end GraphExtractor
end HdlGraph
