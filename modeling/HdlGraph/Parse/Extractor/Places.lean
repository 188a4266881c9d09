import HdlGraph.Parse.Extractor.Added
import HdlGraph.Parse.Extractor.Calls
import HdlGraph.Parse.Extractor.Module

/-!
This module contains the places where an item of a module can stand (right in the module, in a
`module_item`, in generate constructs nested to any depth) and what it gives at each of them. Three
functions of the extractor have a table of the items, one for each sort of place.
-/

namespace HdlGraph

open ExtractM
open scoped List

/-! ## Places -/

structure Frame where
  fields : List FieldName
  text : Text
  pos : Position
  before : List Cst
  after : List Cst

def Frame.fill (frame : Frame) (kind : SyntaxKind) (child : Cst) : Cst :=
  .node kind frame.fields frame.text frame.pos (frame.before ++ child :: frame.after)

@[simp]
theorem Frame.kind_fill (frame : Frame) (kind : SyntaxKind) (child : Cst)
    : (frame.fill kind child).kind = kind := rfl

/-- The ways from an item to the outermost generate construct that it stands in -/
inductive GenerateSpot where
  | here
  | region (region : Frame) (inner : GenerateSpot)
  | loop (construct block : Frame) (inner : GenerateSpot)
  | ifBranch (conditional construct block : Frame) (inner : GenerateSpot)
  | caseItem (conditional construct item block : Frame) (inner : GenerateSpot)

namespace GenerateSpot

def fill : GenerateSpot → Cst → Cst
  | here, item => item
  | region frame inner, item => frame.fill .generateRegion (inner.fill item)
  | loop construct block inner, item =>
    construct.fill .loopGenerateConstruct (block.fill .generateBlock (inner.fill item))
  | ifBranch conditional construct block inner, item =>
    conditional.fill .conditionalGenerateConstruct
      (construct.fill .ifGenerateConstruct (block.fill .generateBlock (inner.fill item)))
  | caseItem conditional construct case block inner, item =>
    conditional.fill .conditionalGenerateConstruct
      (construct.fill .caseGenerateConstruct
        (case.fill .caseGenerateItem (block.fill .generateBlock (inner.fill item))))

end GenerateSpot

structure Place where
  -- The `module_item` around the item or around its generate construct, if there is one
  wrapper : Option Frame
  spot : GenerateSpot

namespace Place

def child (place : Place) (item : Cst) : Cst :=
  (place.wrapper.map fun frame => frame.fill .moduleItem (place.spot.fill item)).getD
  (place.spot.fill item)

end Place

/-! ## What is around the item in the outline -/

namespace GraphExtractor

theorem generateItemsOutline_append (xs ys : List Cst)
    : generateItemsOutline (xs ++ ys) = generateItemsOutline xs ++ generateItemsOutline ys := by
  induction xs with
  | nil => simp [generateItemsOutline]
  | cons x xs ih =>
    rw [List.cons_append, generateItemsOutline, generateItemsOutline, ih, List.append_assoc]

theorem generateBlocksOutline_append (xs ys : List Cst)
    : generateBlocksOutline (xs ++ ys) = generateBlocksOutline xs ++ generateBlocksOutline ys := by
  induction xs with
  | nil => simp [generateBlocksOutline]
  | cons x xs ih =>
    rw [List.cons_append, generateBlocksOutline, generateBlocksOutline, ih, List.append_assoc]

theorem generateConditionsOutline_append (xs ys : List Cst)
    : generateConditionsOutline (xs ++ ys)
        = generateConditionsOutline xs ++ generateConditionsOutline ys := by
  induction xs with
  | nil => simp [generateConditionsOutline]
  | cons x xs ih =>
    rw [List.cons_append, generateConditionsOutline, generateConditionsOutline, ih,
      List.append_assoc]

theorem ifBranchesOutline_append (xs ys : List Cst)
    : ifBranchesOutline (xs ++ ys) = ifBranchesOutline xs ++ ifBranchesOutline ys := by
  induction xs with
  | nil => simp [ifBranchesOutline]
  | cons x xs ih =>
    rw [List.cons_append, ifBranchesOutline, ifBranchesOutline, ih, List.append_assoc]

theorem caseItemsOutline_append (xs ys : List Cst)
    : caseItemsOutline (xs ++ ys) = caseItemsOutline xs ++ caseItemsOutline ys := by
  induction xs with
  | nil => simp [caseItemsOutline]
  | cons x xs ih =>
    cases x
    rw [List.cons_append, caseItemsOutline, caseItemsOutline, ih, List.append_assoc]

end GraphExtractor

open GraphExtractor

def Frame.items (frame : Frame) (os : List Outline) : List Outline :=
  generateItemsOutline frame.before ++ os ++ generateItemsOutline frame.after

def Frame.block (frame : Frame) (kind : GenerateKind) (os : List Outline) : List Outline :=
  [.node ⟨.generateBlock kind, .contains, frame.pos⟩ os]

theorem generateItemsOutline_frame (frame : Frame) (child : Cst)
    : generateItemsOutline (frame.before ++ child :: frame.after)
        = frame.items (generateItemsOutline [child]) := by
  rw [List.append_cons, generateItemsOutline_append, generateItemsOutline_append, Frame.items]

theorem generateBlockOutline_fill (block : Frame) (child : Cst)
    : generateBlockOutline (block.fill .generateBlock child)
        = block.items (generateItemsOutline [child]) := by
  rw [Frame.fill, generateBlockOutline, generateItemsOutline_frame]

theorem generateBlocksOutline_fill (frame block : Frame) (child : Cst)
    : generateBlocksOutline (frame.before ++ block.fill .generateBlock child :: frame.after)
        =
      generateBlocksOutline frame.before ++ block.items (generateItemsOutline [child])
        ++ generateBlocksOutline frame.after := by
  rw [generateBlocksOutline_append, generateBlocksOutline, Frame.kind_fill, if_pos rfl,
    generateBlockOutline_fill, List.append_assoc]

theorem generateConditionsOutline_fill (frame : Frame) (construct : Cst) (os : List Outline)
    (h : generateConditionsOutline [construct] = os)
    : generateConditionsOutline (frame.before ++ construct :: frame.after)
        =
      generateConditionsOutline frame.before ++ os ++ generateConditionsOutline frame.after := by
  rw [List.append_cons, generateConditionsOutline_append, generateConditionsOutline_append, h]

namespace GenerateSpot

def outline : GenerateSpot → List Outline → List Outline
  | here, os => os
  | region frame inner, os => frame.block .loop (frame.items (inner.outline os))
  | loop construct block inner, os =>
    construct.block .for
      (generateBlocksOutline construct.before ++ block.items (inner.outline os)
        ++ generateBlocksOutline construct.after)
  | ifBranch conditional construct block inner, os =>
    generateConditionsOutline conditional.before
      ++ (ifBranchesOutline construct.before ++ block.block .if (block.items (inner.outline os))
        ++ ifBranchesOutline construct.after)
      ++ generateConditionsOutline conditional.after
  | caseItem conditional construct case block inner, os =>
    generateConditionsOutline conditional.before
      ++ (caseItemsOutline construct.before
        ++ case.block .case
          (generateBlocksOutline case.before ++ block.items (inner.outline os)
            ++ generateBlocksOutline case.after)
        ++ caseItemsOutline construct.after)
      ++ generateConditionsOutline conditional.after

theorem outline_injective (spot : GenerateSpot) : Function.Injective spot.outline := by
  intro os os' h
  induction spot with
  | here => exact h
  | region frame inner ih => exact ih (by simpa [outline, Frame.block, Frame.items] using h)
  | loop construct block inner ih => exact ih (by simpa [outline, Frame.block, Frame.items] using h)
  | ifBranch conditional construct block inner ih =>
    exact ih (by simpa [outline, Frame.block, Frame.items] using h)
  | caseItem conditional construct case block inner ih =>
    exact ih (by simpa [outline, Frame.block, Frame.items] using h)

theorem generateItemsOutline_fill (spot : GenerateSpot) (item : Cst)
    : generateItemsOutline [spot.fill item] = spot.outline (generateItemsOutline [item]) := by
  induction spot with
  | here => rfl
  | region frame inner ih =>
    rw [outline, ← ih, ← generateItemsOutline_frame]
    exact List.append_nil _
  | loop construct block inner ih =>
    rw [outline, ← ih, ← generateBlocksOutline_fill]
    exact List.append_nil _
  | ifBranch conditional construct block inner ih =>
    have hbranches : generateConditionsOutline
          [construct.fill .ifGenerateConstruct (block.fill .generateBlock (inner.fill item))]
        = ifBranchesOutline construct.before
          ++ block.block .if (block.items (inner.outline (generateItemsOutline [item])))
          ++ ifBranchesOutline construct.after := by
      refine (List.append_nil _).trans ?_
      change ifBranchesOutline (construct.before ++ _ :: construct.after) = _
      rw [ifBranchesOutline_append, ifBranchesOutline, Frame.kind_fill, if_pos rfl,
        generateBlockOutline_fill, ih, List.append_assoc]
      rfl
    rw [outline, ← generateConditionsOutline_fill conditional _ _ hbranches]
    exact List.append_nil _
  | caseItem conditional construct case block inner ih =>
    have hitems : generateConditionsOutline [construct.fill .caseGenerateConstruct
          (case.fill .caseGenerateItem (block.fill .generateBlock (inner.fill item)))]
        = caseItemsOutline construct.before
          ++ case.block .case (generateBlocksOutline case.before
            ++ block.items (inner.outline (generateItemsOutline [item]))
            ++ generateBlocksOutline case.after)
          ++ caseItemsOutline construct.after := by
      refine (List.append_nil _).trans ?_
      change caseItemsOutline (construct.before ++ _ :: construct.after) = _
      rw [caseItemsOutline_append, Frame.fill, caseItemsOutline, if_pos rfl,
        generateBlocksOutline_fill, ih]
      exact (List.append_assoc ..).symm
    rw [outline, ← generateConditionsOutline_fill conditional _ _ hitems]
    exact List.append_nil _

end GenerateSpot

def isGenerateConstruct : SyntaxKind → Bool
  | .loopGenerateConstruct | .conditionalGenerateConstruct | .generateRegion => true
  | _ => false

theorem isGenerateConstruct_iff {kind : SyntaxKind}
    : isGenerateConstruct kind
        ↔
      kind = .loopGenerateConstruct ∨ kind = .conditionalGenerateConstruct
        ∨ kind = .generateRegion := by
  cases kind <;> simp [isGenerateConstruct]

theorem moduleChildOutline_generate {child : Cst} (h : isGenerateConstruct child.kind)
    : moduleChildOutline child = generateItemsOutline [child] := by
  rw [moduleChildOutline, generateItemsOutline, generateItemsOutline, List.append_nil]
  obtain hkind | hkind | hkind := isGenerateConstruct_iff.mp h <;> simp only [hkind]

theorem moduleBodyChildOutline_generate {child : Cst} (h : isGenerateConstruct child.kind)
    : moduleBodyChildOutline child = generateItemsOutline [child] := by
  rw [moduleBodyChildOutline, generateItemsOutline, generateItemsOutline, List.append_nil]
  obtain hkind | hkind | hkind := isGenerateConstruct_iff.mp h <;> simp only [hkind]

namespace GenerateSpot

def IsHere : GenerateSpot → Bool
  | here => true
  | _ => false

theorem isGenerateConstruct_fill {spot : GenerateSpot} (h : spot.IsHere = false) (item : Cst)
    : isGenerateConstruct (spot.fill item).kind := by
  cases spot with
  | here => cases h
  | _ => rfl

end GenerateSpot

namespace Place

def outline (place : Place) (os : List Outline) : List Outline :=
  (place.wrapper.map fun frame =>
    frame.before.flatMap moduleBodyChildOutline ++ place.spot.outline os
      ++ frame.after.flatMap moduleBodyChildOutline).getD (place.spot.outline os)

theorem outline_injective (place : Place) : Function.Injective place.outline := by
  intro os os' h
  apply place.spot.outline_injective
  obtain ⟨wrapper, spot⟩ := place
  cases wrapper with
  | none => exact h
  | some frame => simpa [outline] using h

def given (place : Place) (item : Cst) : List Outline :=
  if place.spot.IsHere then
    if place.wrapper.isNone then moduleChildOutline item else moduleBodyChildOutline item
  else generateItemsOutline [item]

theorem moduleBodyOutline_fill (frame : Frame) (child : Cst)
    : moduleChildOutline (frame.fill .moduleItem child)
        =
      frame.before.flatMap moduleBodyChildOutline ++ moduleBodyChildOutline child
        ++ frame.after.flatMap moduleBodyChildOutline := by
  change (frame.before ++ child :: frame.after).flatMap moduleBodyChildOutline = _
  rw [List.append_cons, List.flatMap_append, List.flatMap_append, List.flatMap_singleton]

theorem moduleChildOutline_child (place : Place) (item : Cst)
    : moduleChildOutline (place.child item) = place.outline (place.given item) := by
  obtain ⟨wrapper, spot⟩ := place
  have hspot : spot.outline
        (if spot.IsHere then moduleBodyChildOutline item else generateItemsOutline [item])
      = moduleBodyChildOutline (spot.fill item) := by
    cases hhere : spot.IsHere with
    | true =>
      cases spot with
      | here => rfl
      | _ => cases hhere
    | false =>
      rw [moduleBodyChildOutline_generate (GenerateSpot.isGenerateConstruct_fill hhere item),
        GenerateSpot.generateItemsOutline_fill]
      rfl
  have hdirect : spot.outline
        (if spot.IsHere then moduleChildOutline item else generateItemsOutline [item])
      = moduleChildOutline (spot.fill item) := by
    cases hhere : spot.IsHere with
    | true =>
      cases spot with
      | here => rfl
      | _ => cases hhere
    | false =>
      rw [moduleChildOutline_generate (GenerateSpot.isGenerateConstruct_fill hhere item),
        GenerateSpot.generateItemsOutline_fill]
      rfl
  cases wrapper with
  | none => exact hdirect.symm
  | some frame =>
    refine (moduleBodyOutline_fill frame (spot.fill item)).trans ?_
    rw [← hspot]
    rfl

end Place

/-! ## What an item gives -/

-- The item at the place adds `os` below the node that encloses it, and the rest of the child what
-- is its own
def AddsAt (place : Place) (item : Cst) (os : List Outline) : Prop :=
  ∀ moduleId : NodeId,
    extractModuleChild (place.child item) moduleId = emitAll moduleId (place.outline os)

theorem addsAt_iff {place : Place} {item : Cst} {os : List Outline}
    : AddsAt place item os ↔ os = place.given item := by
  unfold AddsAt
  simp only [extractModuleChild_eq, Place.moduleChildOutline_child]
  constructor
  . intro h
    exact (place.outline_injective (emitAll_injective h)).symm
  . intro h moduleId
    rw [h]

namespace Outline

-- An outline without the positions
def shape (o : Outline) : Rose (NodeKind Text × EdgeType) := o.map fun d => (d.kind, d.edge)

def shapes (os : List Outline) : List (Rose (NodeKind Text × EdgeType)) := os.map shape

end Outline

/-- There is one forest that the item adds wherever it stands. -/
def SameEverywhere (item : Cst) : Prop :=
  ∃ forest : List (Rose (NodeKind Text × EdgeType)),
    ∀ place : Place, ∃ os, AddsAt place item os ∧ Outline.shapes os ~ forest

theorem sameEverywhere_iff_tables {item : Cst}
    : SameEverywhere item
        ↔
      Outline.shapes (moduleBodyChildOutline item) ~ Outline.shapes (moduleChildOutline item)
        ∧ Outline.shapes (generateItemsOutline [item])
          ~ Outline.shapes (moduleChildOutline item) := by
  unfold SameEverywhere
  simp only [addsAt_iff, exists_eq_left]
  let frame : Frame := ⟨[], [], ⟨0, 0⟩, [], []⟩
  constructor
  . intro ⟨forest, h⟩
    have hdirect : Outline.shapes (moduleChildOutline item) ~ forest := h ⟨none, .here⟩
    have hwrapped : Outline.shapes (moduleBodyChildOutline item) ~ forest := h ⟨some frame, .here⟩
    have hgenerate : Outline.shapes (generateItemsOutline [item]) ~ forest :=
      h ⟨none, .region frame .here⟩
    exact ⟨hwrapped.trans hdirect.symm, hgenerate.trans hdirect.symm⟩
  . intro ⟨hwrapped, hgenerate⟩
    refine ⟨Outline.shapes (moduleChildOutline item), ?_⟩
    intro place
    unfold Place.given
    split
    . split
      . exact .refl _
      . exact hwrapped
    . exact hgenerate

/-! ## Which items the three tables agree on -/

namespace GraphExtractor

def isModuleItem : SyntaxKind → Bool
  | .netDeclaration | .dataDeclaration | .alwaysConstruct | .initialConstruct | .finalConstruct
  | .continuousAssign | .moduleInstantiation | .udpInstantiation | .gateInstantiation
  | .interfaceInstantiation
  | .functionDeclaration | .taskDeclaration | .classDeclaration | .interfaceDeclaration
  | .concurrentAssertionItem | .propertyDeclaration | .sequenceDeclaration | .covergroupDeclaration
  | .dpiImportExport | .bindDirective | .configDeclaration
  | .loopGenerateConstruct | .conditionalGenerateConstruct | .generateRegion => true
  | _ => false

def NamesInstance (node : Cst) : Prop :=
  node.fieldText .instanceType ≠ []
    ∧ ∃ inst ∈ node.children, inst.kind = .hierarchicalInstance
      ∧ ∃ name ∈ inst.children, name.kind = .nameOfInstance
        ∧ name.childByFieldName .instanceName ≠ none

/--
What the item lacks for the three tables to agree on it: a factory registration or a TLM port type
in a declaration, a call that is recorded, a named instance of an interface or a gate, the name of a
function, a class, an interface or a configuration.
-/
def KeptEverywhere (item : Cst) : Prop :=
  match item.kind with
  | .netDeclaration | .dataDeclaration =>
    factoryRegistrationOf item.text = none
      ∧ (detectTlmPort item = none ∨ collectSignalNames item = [] ∧ tlmPortOutline item = [])
  | .alwaysConstruct | .initialConstruct | .finalConstruct =>
    ∀ call ∈ item.reached isCall fun _ => false, callOutline call = []
  | .gateInstantiation | .interfaceInstantiation => ¬NamesInstance item
  | .functionDeclaration | .taskDeclaration => functionName item = []
  | .classDeclaration | .configDeclaration => item.fieldText .name = []
  | .interfaceDeclaration => interfaceName item = []
  | _ => True

theorem instanceOutline_eq_nil_iff (node : Cst) : instanceOutline node = []
    ↔ ¬NamesInstance node := by
  unfold instanceOutline NamesInstance hierarchicalInstanceOutline
  dsimp only
  split
  . next htype => simp [htype]
  . next htype =>
    simp only [List.flatMap_eq_nil_iff, ne_eq, htype, not_false_eq_true, true_and,
      not_exists, not_and]
    refine forall₂_congr fun inst _ => ?_
    split
    . next hinst =>
      simp only [hinst, true_implies, List.flatMap_eq_nil_iff]
      refine forall₂_congr fun name _ => ?_
      split
      . next hname =>
        cases name.childByFieldName .instanceName <;> simp [hname]
      . next hname => simp [hname]
    . next hinst => simp [hinst]

theorem methodCallsOutline_eq_nil_iff (node : Cst)
    : methodCallsOutline node = []
        ↔ ∀ call ∈ node.reached isCall fun _ => false, callOutline call = [] := by
  rw [methodCallsOutline_eq, List.flatMap_eq_nil_iff]

theorem kind_signalOutline {node : Cst} {o : Outline} (h : o ∈ signalOutline node)
    : ∃ name kind, o.label.kind = .signalDecl name kind := by
  obtain ⟨name, _, ho⟩ := List.mem_flatMap.mp h
  rw [List.mem_singleton.mp ho]
  exact ⟨name, _, rfl⟩

theorem kind_tlmPortOutline {node : Cst} {o : Outline} (h : o ∈ tlmPortOutline node)
    : ∃ name direction, o.label.kind = .tlmPort name direction := by
  unfold tlmPortOutline tlmVariablesOutline at h
  split at h
  . obtain ⟨child, _, h⟩ := List.mem_flatMap.mp h
    split at h
    . obtain ⟨varDecl, _, h⟩ := List.mem_flatMap.mp h
      split at h
      . split at h
        . rw [List.mem_singleton.mp h]
          exact ⟨_, _, rfl⟩
        . cases h
      . cases h
    . cases h
  . cases h

theorem kind_factoryRegistrationOutline {node : Cst} {o : Outline}
    (h : o ∈ factoryRegistrationOutline node)
    : ∃ typeName baseType, o.label.kind = .factoryReg typeName baseType := by
  unfold factoryRegistrationOutline at h
  split at h
  . rw [List.mem_singleton.mp h]
    exact ⟨_, _, rfl⟩
  . cases h

theorem factoryRegistrationOutline_eq_nil_iff (node : Cst)
    : factoryRegistrationOutline node = [] ↔ factoryRegistrationOf node.text = none := by
  unfold factoryRegistrationOutline
  split <;> simp_all

end GraphExtractor

open GraphExtractor

namespace Outline

theorem length_eq {os os' : List Outline} (h : shapes os ~ shapes os')
    : os.length = os'.length := by
  simpa [shapes] using h.length_eq

theorem kind_mem {os os' : List Outline} (h : shapes os ~ shapes os') {o : Outline} (ho : o ∈ os)
    : ∃ o' ∈ os', o'.label.kind = o.label.kind := by
  have hmem : o.shape ∈ shapes os' := h.subset (List.mem_map_of_mem ho)
  obtain ⟨o', ho', heq⟩ := List.mem_map.mp hmem
  refine ⟨o', ho', ?_⟩
  have hlabel := congrArg (fun shape => shape.label.1) heq
  simpa [shape] using hlabel

theorem append_perm_iff {os os' : List Outline} : shapes (os ++ os') ~ shapes os ↔ os' = [] := by
  constructor
  . intro h
    have := length_eq h
    exact List.eq_nil_of_length_eq_zero (by simpa using this)
  . intro h
    rw [h, List.append_nil]

theorem nil_perm_iff {os : List Outline} : shapes [] ~ shapes os ↔ os = [] := by
  simp [shapes]

theorem perm_append_iff {os os' : List Outline} : shapes os ~ shapes (os ++ os') ↔ os' = [] :=
  (List.perm_comm ..).trans append_perm_iff

end Outline

theorem signalOutline_perm_iff (item : Cst)
    : Outline.shapes (signalOutline item) ~ Outline.shapes (declarationOutline item)
        ↔
      factoryRegistrationOf item.text = none
        ∧ (detectTlmPort item = none ∨ collectSignalNames item = []
            ∧ tlmPortOutline item = []) := by
  have hsignal : signalOutline item = [] ↔ collectSignalNames item = [] := by
    rw [signalOutline, List.flatMap_eq_nil_iff, List.eq_nil_iff_forall_not_mem]
    simp only [imp_false, List.cons_ne_nil]
  unfold declarationOutline
  rw [← factoryRegistrationOutline_eq_nil_iff]
  cases htlm : detectTlmPort item with
  | none => simp [Outline.perm_append_iff]
  | some direction =>
    simp only [Option.isSome_some, if_true, reduceCtorEq, false_or]
    constructor
    . intro h
      have hports : tlmPortOutline item = [] := by
        rw [List.eq_nil_iff_forall_not_mem]
        intro o ho
        obtain ⟨o', ho', heq⟩ := Outline.kind_mem h.symm (List.mem_append_left _ ho)
        obtain ⟨_, _, hkind⟩ := kind_tlmPortOutline ho
        obtain ⟨_, _, hkind'⟩ := kind_signalOutline ho'
        rw [hkind, hkind'] at heq
        cases heq
      have hregistration : factoryRegistrationOutline item = [] := by
        rw [List.eq_nil_iff_forall_not_mem]
        intro o ho
        obtain ⟨o', ho', heq⟩ := Outline.kind_mem h.symm (List.mem_append_right _ ho)
        obtain ⟨_, _, hkind⟩ := kind_factoryRegistrationOutline ho
        obtain ⟨_, _, hkind'⟩ := kind_signalOutline ho'
        rw [hkind, hkind'] at heq
        cases heq
      rw [hports, hregistration] at h
      exact ⟨hregistration, hsignal.mp (Outline.nil_perm_iff.mp h.symm), hports⟩
    . intro ⟨hregistration, hnames, hports⟩
      rw [hregistration, hports, hsignal.mpr hnames, List.append_nil]

theorem functionOutline_eq_nil_iff (node : Cst) : functionOutline node = []
    ↔ functionName node = [] := by
  unfold functionOutline
  by_cases h : functionName node = [] <;> simp [h]

theorem toList_classOutline_eq_nil_iff (node : Cst) : (classOutline node).toList = []
    ↔ node.fieldText .name = [] := by
  cases node
  rw [classOutline]
  split <;> simp_all

theorem toList_interfaceOutline_eq_nil_iff (node : Cst)
    : (interfaceOutline node).toList = [] ↔ interfaceName node = [] := by
  unfold interfaceOutline
  by_cases h : interfaceName node = [] <;> simp [h]

theorem namedOutline_eq_nil_iff (kind : ∀ {ν : Type}, ν → NodeKind ν) (node : Cst)
    : namedOutline kind node = [] ↔ node.fieldText .name = [] := by
  unfold namedOutline
  by_cases h : node.fieldText .name = [] <;> simp [h]

theorem sameEverywhere_iff {item : Cst} (h : isModuleItem item.kind)
    : SameEverywhere item ↔ KeptEverywhere item := by
  rw [sameEverywhere_iff_tables]
  unfold isModuleItem at h
  split at h
  all_goals
    first
    | exact absurd h Bool.false_ne_true
    | next hkind =>
      simp only [moduleBodyChildOutline, moduleChildOutline, generateItemsOutline, KeptEverywhere,
        hkind, List.append_nil, List.Perm.refl, true_and, and_self, and_true,
        signalOutline_perm_iff, Outline.perm_append_iff, Outline.nil_perm_iff,
        methodCallsOutline_eq_nil_iff, instanceOutline_eq_nil_iff, functionOutline_eq_nil_iff,
        toList_classOutline_eq_nil_iff, toList_interfaceOutline_eq_nil_iff, namedOutline_eq_nil_iff]

-- `cell u0();`, an instance of a module or of an interface
def cellInstance (kind : SyntaxKind) : Cst :=
  .node kind [] "cell u0();".toList ⟨1, 2⟩ [
    .node .simpleIdentifier [.instanceType] "cell".toList ⟨1, 2⟩ [],
    .node .hierarchicalInstance [] "u0()".toList ⟨1, 7⟩ [
      .node .nameOfInstance [] "u0".toList ⟨1, 7⟩
      [.node .simpleIdentifier [.instanceName] "u0".toList ⟨1, 7⟩ []]]]

theorem sameEverywhere_cellInstance : SameEverywhere (cellInstance .moduleInstantiation) :=
  (sameEverywhere_iff rfl).mpr trivial

-- A `module_item` has no arm for interfaces
theorem not_sameEverywhere_cellInstance
    : ¬SameEverywhere (cellInstance .interfaceInstantiation) := by
  intro h
  have hlength := Outline.length_eq (sameEverywhere_iff_tables.mp h).1
  revert hlength
  decide

end HdlGraph
