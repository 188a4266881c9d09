import HdlGraph.Parse.Extractor.Attached

/-!
This module contains how the extracted nodes hang on each other: whatever can be looked up by name
is tied to its parent by a `Contains` or `Defines` edge, from the file down. Registrations and
overrides of the UVM factory are tied by other edges, and nothing is below them. The kind of a node
tells which edge it is. Nodes for classes come from class declarations only; all other outlines are
plain.
-/

namespace HdlGraph

def EdgeType.isScope : EdgeType → Bool
  | contains | defines => true
  | _ => false

def NodeKind.definedName : NodeKind ν → Option ν
  | module name | .class name _ | package name | interface name | function name _
  | signalDecl name _ | modulePort name _ | moduleInstance name _ => some name
  | _ => none

def NodeKind.isClass : NodeKind ν → Bool
  | .class _ _ => true
  | _ => false

def NodeKind.HangsBy (kind : NodeKind ν) (edge : EdgeType) : Prop :=
  match kind with
  | modulePort _ _ | property _ | method _ _ | tlmPort _ _ => edge = .defines
  | signalDecl _ _ => edge = .defines ∨ edge = .contains
  | factoryReg _ _ => edge = .factoryRegisters
  | factoryOverride _ _ => edge = .factoryOverrides
  | _ => edge = .contains

namespace Outline

mutual

def Scoped : Outline → Prop
  | .node d children =>
    (d.edge.isScope = true ∨ d.kind.definedName = none ∧ children = []) ∧ ScopedAll children

def ScopedAll : List Outline → Prop
  | [] => True
  | o :: os => Scoped o ∧ ScopedAll os

end

@[simp]
theorem scopedAll_nil : ScopedAll [] := by simp only [ScopedAll]

@[simp]
theorem scopedAll_cons (o : Outline) (os : List Outline)
    : ScopedAll (o :: os) ↔ o.Scoped ∧ ScopedAll os := by
  simp only [ScopedAll]

@[simp]
theorem scopedAll_append (os os' : List Outline)
    : ScopedAll (os ++ os') ↔ ScopedAll os ∧ ScopedAll os' := by
  induction os with
  | nil => simp
  | cons o os ih => simp [ih, and_assoc]

@[simp]
theorem scoped_leaf (node : Cst) (kind : NodeKind Text) (edge : EdgeType)
    : (leaf node kind edge).Scoped ↔ edge.isScope = true ∨ kind.definedName = none := by
  simp [leaf, Scoped]

theorem scoped_node {d : Declared} {children : List Outline} (hedge : d.edge.isScope = true)
    (hchildren : ScopedAll children)
    : Scoped (.node d children) := by
  simp [Scoped, hedge, hchildren]

def Plain (o : Outline) : Prop := o.Scoped ∧ ∀ d ∈ o.labels, d.kind.isClass = false

structure PlainAll (os : List Outline) : Prop where
  scopedAll : ScopedAll os
  isClass : ∀ d ∈ Rose.labelsAll os, d.kind.isClass = false

def HangsBy (o : Outline) : Prop := ∀ d ∈ o.labels, d.kind.HangsBy d.edge

structure FitAll (os : List Outline) : Prop where
  scopedAll : ScopedAll os
  hangsBy : ∀ d ∈ Rose.labelsAll os, d.kind.HangsBy d.edge

structure PlainFitAll (os : List Outline) : Prop extends FitAll os, PlainAll os

@[simp]
theorem fitAll_nil : FitAll [] := ⟨scopedAll_nil, by simp⟩

@[simp]
theorem fitAll_cons (o : Outline) (os : List Outline)
    : FitAll (o :: os) ↔ (o.Scoped ∧ o.HangsBy) ∧ FitAll os := by
  constructor
  . intro ⟨hscoped, hhangs⟩
    rw [scopedAll_cons] at hscoped
    rw [Rose.labelsAll_cons, List.forall_mem_append] at hhangs
    exact ⟨⟨hscoped.1, hhangs.1⟩, ⟨hscoped.2, hhangs.2⟩⟩
  . intro ⟨ho, hos⟩
    refine ⟨by simp [ho.1, hos.scopedAll], ?_⟩
    rw [Rose.labelsAll_cons, List.forall_mem_append]
    exact ⟨ho.2, hos.hangsBy⟩

@[simp]
theorem fitAll_append (os os' : List Outline) : FitAll (os ++ os') ↔ FitAll os ∧ FitAll os' := by
  induction os with
  | nil => simp
  | cons o os ih => simp [ih, and_assoc]

theorem fitAll_node {d : Declared} {children : List Outline} (hedge : d.edge.isScope = true)
    (hkind : d.kind.HangsBy d.edge) (hchildren : FitAll children)
    : FitAll [.node d children] := by
  rw [fitAll_cons]
  refine ⟨⟨scoped_node hedge hchildren.scopedAll, ?_⟩, fitAll_nil⟩
  rw [HangsBy, Rose.labels, List.forall_mem_cons]
  exact ⟨hkind, hchildren.hangsBy⟩

theorem fitAll_flatMap {α : Type} {xs : List α} {f : α → List Outline} (hf : ∀ x, FitAll (f x))
    : FitAll (xs.flatMap f) := by
  induction xs with
  | nil => simp
  | cons x xs ih => simp [hf x, ih]

@[simp]
theorem plainFitAll_nil : PlainFitAll [] := ⟨fitAll_nil, by simp⟩

@[simp]
theorem plainFitAll_cons (o : Outline) (os : List Outline)
    : PlainFitAll (o :: os) ↔ (o.Plain ∧ o.HangsBy) ∧ PlainFitAll os := by
  constructor
  . intro ⟨hfit, hclass⟩
    rw [fitAll_cons] at hfit
    rw [Rose.labelsAll_cons, List.forall_mem_append] at hclass
    exact ⟨⟨⟨hfit.1.1, hclass.1⟩, hfit.1.2⟩, ⟨hfit.2, hclass.2⟩⟩
  . intro ⟨ho, hos⟩
    refine ⟨by simp [ho.1.1, ho.2, hos.toFitAll], ?_⟩
    rw [Rose.labelsAll_cons, List.forall_mem_append]
    exact ⟨ho.1.2, hos.isClass⟩

@[simp]
theorem plainFitAll_append (os os' : List Outline)
    : PlainFitAll (os ++ os') ↔ PlainFitAll os ∧ PlainFitAll os' := by
  induction os with
  | nil => simp
  | cons o os ih => simp [ih, and_assoc]

@[simp]
theorem plain_leaf (node : Cst) (kind : NodeKind Text) (edge : EdgeType)
    : (leaf node kind edge).Plain ↔ (edge.isScope = true ∨ kind.definedName = none)
        ∧ kind.isClass = false := by
  rw [Plain, scoped_leaf]
  simp [leaf, Rose.labels]

@[simp]
theorem hangsBy_leaf (node : Cst) (kind : NodeKind Text) (edge : EdgeType)
    : (leaf node kind edge).HangsBy ↔ kind.HangsBy edge := by
  simp [leaf, HangsBy, Rose.labels]

theorem plainFitAll_node {d : Declared} {children : List Outline} (hedge : d.edge.isScope = true)
    (hclass : d.kind.isClass = false) (hkind : d.kind.HangsBy d.edge)
    (hchildren : PlainFitAll children)
    : PlainFitAll [.node d children] := by
  refine ⟨fitAll_node hedge hkind hchildren.toFitAll, ?_⟩
  rw [Rose.labelsAll_cons, Rose.labels, Rose.labelsAll_nil, List.append_nil, List.forall_mem_cons]
  exact ⟨hclass, hchildren.isClass⟩

theorem plainFitAll_flatMap {α : Type} {xs : List α} {f : α → List Outline}
    (hf : ∀ x, PlainFitAll (f x))
    : PlainFitAll (xs.flatMap f) := by
  induction xs with
  | nil => simp
  | cons x xs ih => simp [hf x, ih]

end Outline

namespace GraphExtractor

open Outline

-- An outline's definition has its edge and kind in it, on which these compute
attribute [local simp] EdgeType.isScope NodeKind.definedName NodeKind.isClass NodeKind.HangsBy

section Declarations

theorem plainFitAll_portOutline (node : Cst) : PlainFitAll (portOutline node) := by
  unfold portOutline
  dsimp only
  split <;> simp

theorem plainFitAll_portsOutline (node : Cst) : PlainFitAll (portsOutline node) := by
  apply plainFitAll_flatMap
  intro child
  split <;> simp [plainFitAll_portOutline]

theorem plainFitAll_signalOutline (node : Cst) : PlainFitAll (signalOutline node) := by
  apply plainFitAll_flatMap
  simp

theorem plainFitAll_alwaysOutline (node : Cst) : PlainFitAll (alwaysOutline node) := by
  simp [alwaysOutline]

theorem plainFitAll_assignOutline (node : Cst) : PlainFitAll (assignOutline node) := by
  simp [assignOutline]

theorem plainFitAll_hierarchicalInstanceOutline (node : Cst) (moduleType : Text)
    : PlainFitAll (hierarchicalInstanceOutline node moduleType) := by
  apply plainFitAll_flatMap
  intro child
  split
  . split <;> simp
  . simp

theorem plainFitAll_instanceOutline (node : Cst) : PlainFitAll (instanceOutline node) := by
  unfold instanceOutline
  dsimp only
  split
  . simp
  . apply plainFitAll_flatMap
    intro child
    split <;> simp [plainFitAll_hierarchicalInstanceOutline]

theorem plainFitAll_namedOutline (kind : ∀ {ν : Type}, ν → NodeKind ν) (node : Cst)
    (hclass : ∀ name : Text, (kind name).isClass = false)
    (hkind : ∀ name : Text, (kind name).HangsBy .contains)
    : PlainFitAll (namedOutline kind node) := by
  unfold namedOutline
  dsimp only
  split
  . rw [plainFitAll_cons, plain_leaf, hangsBy_leaf]
    exact ⟨⟨⟨Or.inl rfl, hclass _⟩, hkind _⟩, plainFitAll_nil⟩
  . exact plainFitAll_nil

theorem plainFitAll_assertionOutline (node : Cst) : PlainFitAll (assertionOutline node) := by
  simp [assertionOutline]

theorem plainFitAll_covergroupOutline (node : Cst) : PlainFitAll (covergroupOutline node) := by
  unfold covergroupOutline
  dsimp only
  split
  . refine plainFitAll_node rfl rfl rfl (plainFitAll_flatMap ?_)
    intro child
    split
    . exact plainFitAll_namedOutline .coverPoint child (fun _ => rfl) fun _ => rfl
    . simp
  . simp

theorem plainFitAll_dpiOutline (node : Cst) : PlainFitAll (dpiOutline node) := by
  unfold dpiOutline
  dsimp only
  split <;> simp

theorem plainFitAll_bindOutline (node : Cst) : PlainFitAll (bindOutline node) := by
  unfold bindOutline
  dsimp only
  split <;> simp

end Declarations

section Uvm

theorem plainFitAll_tlmPortOutline (node : Cst) : PlainFitAll (tlmPortOutline node) := by
  have hvariables : ∀ child dir, PlainFitAll (tlmVariablesOutline child dir) := by
    intro child dir
    apply plainFitAll_flatMap
    intro varDecl
    split
    . split <;> simp
    . simp
  unfold tlmPortOutline
  split
  . apply plainFitAll_flatMap
    intro child
    split <;> simp [hvariables]
  . simp

theorem plainFitAll_configDbSetOutline (node : Cst) : PlainFitAll (configDbSetOutline node) := by
  unfold configDbSetOutline
  split <;> simp

theorem plainFitAll_configDbGetOutline (node : Cst) : PlainFitAll (configDbGetOutline node) := by
  unfold configDbGetOutline
  split <;> simp

theorem plainFitAll_factoryRegistrationOutline (node : Cst)
    : PlainFitAll (factoryRegistrationOutline node) := by
  unfold factoryRegistrationOutline
  split <;> simp

theorem plainFitAll_factoryCreateOutline (node : Cst)
    : PlainFitAll (factoryCreateOutline node) := by
  unfold factoryCreateOutline
  split <;> simp

theorem plainFitAll_factoryOverrideOutline (node : Cst)
    : PlainFitAll (factoryOverrideOutline node) := by
  unfold factoryOverrideOutline
  split <;> simp

theorem plainFitAll_factoryCreateViaTfOutline (node : Cst) (scopeFragments : List Text)
    : PlainFitAll (factoryCreateViaTfOutline node scopeFragments) := by
  unfold factoryCreateViaTfOutline
  dsimp only
  split <;> simp

theorem plainFitAll_factoryOverrideViaTfOutline (node : Cst) (scopeFragments : List Text)
    : PlainFitAll (factoryOverrideViaTfOutline node scopeFragments) := by
  unfold factoryOverrideViaTfOutline
  split <;> simp

theorem plainFitAll_methodCallOutline (node : Cst) : PlainFitAll (methodCallOutline node) := by
  unfold methodCallOutline
  dsimp only
  repeat' split
  . simp [tlmConnectOutline]
  . apply plainFitAll_configDbSetOutline
  . apply plainFitAll_configDbGetOutline
  . apply plainFitAll_factoryCreateOutline
  . apply plainFitAll_factoryOverrideOutline
  . simp

theorem plainFitAll_tfCallOutline (node : Cst) : PlainFitAll (tfCallOutline node) := by
  unfold tfCallOutline
  dsimp only
  repeat' split
  . simp
  . apply plainFitAll_factoryCreateViaTfOutline
  . simp
  . apply plainFitAll_factoryOverrideViaTfOutline
  . apply plainFitAll_configDbSetOutline
  . apply plainFitAll_configDbGetOutline
  . simp

mutual

theorem plainFitAll_methodCallsOutline : (node : Cst) → PlainFitAll (methodCallsOutline node)
  | .node _ _ _ _ children => by
    rw [methodCallsOutline]
    apply plainFitAll_methodCallsInOutline

theorem plainFitAll_methodCallsInOutline
    : (children : List Cst) → PlainFitAll (methodCallsInOutline children)
  | [] => by simp [methodCallsInOutline]
  | child :: rest => by
    rw [methodCallsInOutline, plainFitAll_append]
    refine ⟨?_, plainFitAll_methodCallsInOutline rest⟩
    split
    . apply plainFitAll_methodCallOutline
    . apply plainFitAll_tfCallOutline
    . apply plainFitAll_methodCallsOutline

end

end Uvm

section Constructs

mutual

theorem plainFitAll_generateForOutline : (node : Cst) → PlainFitAll (generateForOutline node)
  | .node _ _ _ _ children => by
    rw [generateForOutline]
    exact plainFitAll_node rfl rfl rfl (plainFitAll_generateBlocksOutline children)

theorem plainFitAll_generateIfOutline : (node : Cst) → PlainFitAll (generateIfOutline node)
  | .node _ _ _ _ children => by
    rw [generateIfOutline]
    apply plainFitAll_generateConditionsOutline

theorem plainFitAll_generateRegionOutline : (node : Cst) → PlainFitAll (generateRegionOutline node)
  | .node _ _ _ _ children => by
    rw [generateRegionOutline]
    exact plainFitAll_node rfl rfl rfl (plainFitAll_generateItemsOutline children)

theorem plainFitAll_ifGenerateOutline : (node : Cst) → PlainFitAll (ifGenerateOutline node)
  | .node _ _ _ _ children => by
    rw [ifGenerateOutline]
    apply plainFitAll_ifBranchesOutline

theorem plainFitAll_caseGenerateOutline : (node : Cst) → PlainFitAll (caseGenerateOutline node)
  | .node _ _ _ _ children => by
    rw [caseGenerateOutline]
    apply plainFitAll_caseItemsOutline

theorem plainFitAll_generateBlockOutline : (node : Cst) → PlainFitAll (generateBlockOutline node)
  | .node _ _ _ _ children => by
    rw [generateBlockOutline]
    apply plainFitAll_generateItemsOutline

theorem plainFitAll_generateBlocksOutline
    : (children : List Cst) → PlainFitAll (generateBlocksOutline children)
  | [] => by simp [generateBlocksOutline]
  | child :: rest => by
    rw [generateBlocksOutline, plainFitAll_append]
    refine ⟨?_, plainFitAll_generateBlocksOutline rest⟩
    split
    . apply plainFitAll_generateBlockOutline
    . simp

theorem plainFitAll_generateConditionsOutline
    : (children : List Cst) → PlainFitAll (generateConditionsOutline children)
  | [] => by simp [generateConditionsOutline]
  | child :: rest => by
    rw [generateConditionsOutline, plainFitAll_append]
    refine ⟨?_, plainFitAll_generateConditionsOutline rest⟩
    split
    . apply plainFitAll_ifGenerateOutline
    . apply plainFitAll_caseGenerateOutline
    . simp

theorem plainFitAll_ifBranchesOutline
    : (children : List Cst) → PlainFitAll (ifBranchesOutline children)
  | [] => by simp [ifBranchesOutline]
  | child :: rest => by
    rw [ifBranchesOutline, plainFitAll_append]
    refine ⟨?_, plainFitAll_ifBranchesOutline rest⟩
    split
    . exact plainFitAll_node rfl rfl rfl (plainFitAll_generateBlockOutline child)
    . simp

theorem plainFitAll_caseItemsOutline
    : (children : List Cst) → PlainFitAll (caseItemsOutline children)
  | [] => by simp [caseItemsOutline]
  | .node _ _ _ _ itemChildren :: rest => by
    rw [caseItemsOutline, plainFitAll_append]
    refine ⟨?_, plainFitAll_caseItemsOutline rest⟩
    split
    . exact plainFitAll_node rfl rfl rfl (plainFitAll_generateBlocksOutline itemChildren)
    . simp

theorem plainFitAll_generateItemsOutline
    : (children : List Cst) → PlainFitAll (generateItemsOutline children)
  | [] => by simp [generateItemsOutline]
  | child :: rest => by
    rw [generateItemsOutline, plainFitAll_append]
    refine ⟨?_, plainFitAll_generateItemsOutline rest⟩
    split
    . apply plainFitAll_generateForOutline
    . apply plainFitAll_generateIfOutline
    . apply plainFitAll_generateRegionOutline
    . apply plainFitAll_instanceOutline
    . apply plainFitAll_instanceOutline
    . apply plainFitAll_instanceOutline
    . apply plainFitAll_instanceOutline
    . apply plainFitAll_signalOutline
    . apply plainFitAll_signalOutline
    . apply plainFitAll_alwaysOutline
    . apply plainFitAll_assignOutline
    . apply plainFitAll_assertionOutline
    . apply plainFitAll_covergroupOutline
    . exact plainFitAll_namedOutline .propertyDecl child (fun _ => rfl) fun _ => rfl
    . exact plainFitAll_namedOutline .sequenceDecl child (fun _ => rfl) fun _ => rfl
    . apply plainFitAll_dpiOutline
    . apply plainFitAll_bindOutline
    . simp

end

theorem plainFitAll_classPropertyOutline (node : Cst)
    : PlainFitAll (classPropertyOutline node) := by
  have hproperties : ∀ child, PlainFitAll (propertiesOutline child) := by
    intro child
    apply plainFitAll_flatMap
    simp
  apply plainFitAll_flatMap
  intro child
  split <;> simp [hproperties, plainFitAll_factoryRegistrationOutline]

theorem plainFitAll_classMethodOutline (node : Cst) : PlainFitAll (classMethodOutline node) := by
  unfold classMethodOutline
  dsimp only
  split
  . exact plainFitAll_node rfl rfl rfl (plainFitAll_methodCallsOutline node)
  . simp

mutual

theorem fitAll_classOutline : (node : Cst) → FitAll (classOutline node).toList
  | .node _ _ _ _ children => by
    rw [classOutline]
    split
    . simp
    . rw [Option.toList_some]
      exact fitAll_node rfl rfl (fitAll_classBodyOutline children)

theorem fitAll_classBodyOutline : (children : List Cst) → FitAll (classBodyOutline children)
  | [] => by simp [classBodyOutline]
  | child :: rest => by
    rw [classBodyOutline, fitAll_append]
    refine ⟨?_, fitAll_classBodyOutline rest⟩
    split
    . apply fitAll_classItemOutline
    . simp

theorem fitAll_classItemOutline : (node : Cst) → FitAll (classItemOutline node)
  | .node _ _ _ _ children => by
    rw [classItemOutline]
    apply fitAll_classItemsOutline

theorem fitAll_classItemsOutline : (children : List Cst) → FitAll (classItemsOutline children)
  | [] => by simp [classItemsOutline]
  | child :: rest => by
    rw [classItemsOutline, fitAll_append]
    refine ⟨?_, fitAll_classItemsOutline rest⟩
    split
    . exact (plainFitAll_classPropertyOutline child).toFitAll
    . exact (plainFitAll_classMethodOutline child).toFitAll
    . apply fitAll_classOutline
    . simp

end

theorem plainFitAll_packageOutline (node : Cst) : PlainFitAll (packageOutline node).toList := by
  have himport : ∀ child, PlainFitAll (packageImportOutline child) := by
    intro child
    apply plainFitAll_flatMap
    intro item
    split <;> simp
  have hexport : ∀ child, PlainFitAll (packageExportOutline child) := by
    intro child
    apply plainFitAll_flatMap
    intro item
    split
    . split <;> simp
    . split <;> simp
  have hitem : ∀ child, PlainFitAll (packageItemOutline child) := by
    intro child
    apply plainFitAll_flatMap
    intro item
    split <;> simp [himport, hexport]
  unfold packageOutline
  dsimp only
  split
  . simp
  . rw [Option.toList_some]
    refine plainFitAll_node rfl rfl rfl (plainFitAll_flatMap ?_)
    intro child
    split <;> simp [hitem]

theorem plainFitAll_interfaceOutline (node : Cst) : PlainFitAll (interfaceOutline node).toList := by
  have hmodport : ∀ child, PlainFitAll (modportOutline child) := by
    intro child
    apply plainFitAll_flatMap
    intro item
    split
    . split <;> simp
    . simp
  have hclocking : ∀ child, PlainFitAll (clockingOutline child) := by
    intro child
    unfold clockingOutline
    dsimp only
    split <;> simp
  have hitem : ∀ child, PlainFitAll (interfaceItemOutline child) := by
    intro child
    apply plainFitAll_flatMap
    intro item
    split <;> simp [hmodport, hclocking]
  have hchild : ∀ child, PlainFitAll (interfaceChildOutline child) := by
    intro child
    unfold interfaceChildOutline
    split <;> simp [hmodport, hclocking, hitem]
  unfold interfaceOutline
  dsimp only
  split
  . simp
  . rw [Option.toList_some]
    exact plainFitAll_node rfl rfl rfl (plainFitAll_flatMap hchild)

end Constructs

section Modules

theorem plainFitAll_functionOutline (node : Cst) : PlainFitAll (functionOutline node) := by
  unfold functionOutline
  dsimp only
  split
  . exact plainFitAll_node rfl rfl rfl (plainFitAll_methodCallsOutline node)
  . simp

theorem plainFitAll_declarationOutline (node : Cst) : PlainFitAll (declarationOutline node) := by
  rw [declarationOutline, plainFitAll_append]
  refine ⟨?_, plainFitAll_factoryRegistrationOutline node⟩
  split
  . apply plainFitAll_tlmPortOutline
  . apply plainFitAll_signalOutline

theorem plainFitAll_moduleBodyChildOutline {child : Cst} (hkind : child.kind ≠ .classDeclaration)
    : PlainFitAll (moduleBodyChildOutline child) := by
  unfold moduleBodyChildOutline
  split
  . apply plainFitAll_declarationOutline
  . apply plainFitAll_declarationOutline
  . simp [plainFitAll_alwaysOutline, plainFitAll_methodCallsOutline]
  . apply plainFitAll_methodCallsOutline
  . apply plainFitAll_methodCallsOutline
  . apply plainFitAll_instanceOutline
  . apply plainFitAll_instanceOutline
  . apply plainFitAll_assignOutline
  . apply plainFitAll_generateForOutline
  . apply plainFitAll_generateIfOutline
  . apply plainFitAll_generateRegionOutline
  . apply plainFitAll_assertionOutline
  . apply plainFitAll_covergroupOutline
  . exact plainFitAll_namedOutline .propertyDecl child (fun _ => rfl) fun _ => rfl
  . exact plainFitAll_namedOutline .sequenceDecl child (fun _ => rfl) fun _ => rfl
  . apply plainFitAll_dpiOutline
  . apply plainFitAll_bindOutline
  . exact plainFitAll_namedOutline .configBlock child (fun _ => rfl) fun _ => rfl
  . next hclass => exact absurd hclass hkind
  . apply plainFitAll_interfaceOutline
  . simp

theorem fitAll_moduleBodyChildOutline (child : Cst) : FitAll (moduleBodyChildOutline child) := by
  by_cases hkind : child.kind = .classDeclaration
  . simp only [moduleBodyChildOutline, hkind]
    apply fitAll_classOutline
  . exact (plainFitAll_moduleBodyChildOutline hkind).toFitAll

theorem plainFitAll_headerOutline (node : Cst) : PlainFitAll (headerOutline node) := by
  apply plainFitAll_flatMap
  intro hchild
  split <;> simp [plainFitAll_portsOutline]

theorem plainFitAll_moduleChildOutline {child : Cst} (hitem : child.kind ≠ .moduleItem)
    (hkind : child.kind ≠ .classDeclaration)
    : PlainFitAll (moduleChildOutline child) := by
  unfold moduleChildOutline
  split
  . apply plainFitAll_headerOutline
  . apply plainFitAll_headerOutline
  . apply plainFitAll_headerOutline
  . apply plainFitAll_declarationOutline
  . apply plainFitAll_declarationOutline
  . simp [plainFitAll_alwaysOutline, plainFitAll_methodCallsOutline]
  . apply plainFitAll_methodCallsOutline
  . apply plainFitAll_methodCallsOutline
  . apply plainFitAll_instanceOutline
  . apply plainFitAll_instanceOutline
  . apply plainFitAll_instanceOutline
  . apply plainFitAll_instanceOutline
  . apply plainFitAll_assignOutline
  . apply plainFitAll_functionOutline
  . apply plainFitAll_functionOutline
  . apply plainFitAll_generateForOutline
  . apply plainFitAll_generateIfOutline
  . apply plainFitAll_generateRegionOutline
  . apply plainFitAll_assertionOutline
  . apply plainFitAll_covergroupOutline
  . exact plainFitAll_namedOutline .propertyDecl child (fun _ => rfl) fun _ => rfl
  . exact plainFitAll_namedOutline .sequenceDecl child (fun _ => rfl) fun _ => rfl
  . apply plainFitAll_dpiOutline
  . apply plainFitAll_bindOutline
  . exact plainFitAll_namedOutline .configBlock child (fun _ => rfl) fun _ => rfl
  . next hmodule => exact absurd hmodule hitem
  . next hclass => exact absurd hclass hkind
  . apply plainFitAll_interfaceOutline
  . simp

theorem fitAll_moduleChildOutline (child : Cst) : FitAll (moduleChildOutline child) := by
  by_cases hitem : child.kind = .moduleItem
  . simp only [moduleChildOutline, hitem]
    exact fitAll_flatMap fitAll_moduleBodyChildOutline
  . by_cases hkind : child.kind = .classDeclaration
    . simp only [moduleChildOutline, hkind]
      apply fitAll_classOutline
    . exact (plainFitAll_moduleChildOutline hitem hkind).toFitAll

theorem fitAll_moduleItemsOutline (node : Cst) : FitAll (moduleItemsOutline node) :=
  fitAll_flatMap fitAll_moduleChildOutline

end Modules

end GraphExtractor
end HdlGraph
