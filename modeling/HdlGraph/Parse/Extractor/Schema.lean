import HdlGraph.Library.Typed
import HdlGraph.Parse.Extractor.TopItems
import HdlGraph.Parse.Extractor.Origin

/-!
This module contains the schema of the extracted graph: which kinds of nodes are below which, and by
which edges. The extractor conforms to it whatever the syntax tree looks like.
-/

namespace HdlGraph
namespace NodeKind

variable {ν μ : Type}

def isTopItem : NodeKind ν → Bool
  | module _ | .class _ _ | package _ | interface _ | configBlock _ | bindDirective _ => true
  | _ => false

def isCallItem : NodeKind ν → Bool
  | tlmBinding | configDBSet _ | configDBGet _ | factoryCreate _ | factoryOverride _ _ => true
  | _ => false

def isDesignItem : NodeKind ν → Bool
  | generateBlock _ | moduleInstance _ _ | signalDecl _ _ | alwaysBlock
      _ | assignment | assertProperty | coverGroup _
  | propertyDecl _ | sequenceDecl _ | dpiImport _ | bindDirective _ => true
  | _ => false

def isModuleItem : NodeKind ν → Bool
  | modulePort _ _ | tlmPort _ _ | factoryReg _ _ | function _ _ | .class _ _ | interface
      _ | configBlock _ => true
  | kind => kind.isDesignItem || kind.isCallItem

def isClassItem : NodeKind ν → Bool
  | property _ | method _ _ | factoryReg _ _ | .class _ _ => true
  | _ => false

-- Signals stand for clocking blocks here
def isInterfaceItem : NodeKind ν → Bool
  | modport _ | signalDecl _ _ => true
  | _ => false

def isPackageImport : NodeKind ν → Bool
  | packageImport _ => true
  | _ => false

def isCoverPoint : NodeKind ν → Bool
  | coverPoint _ => true
  | _ => false

/-- The nodes that there can be below a node. Nodes of most kinds have nothing below them. -/
def holds (parent : NodeKind ν) (child : NodeKind μ) : Bool :=
  match parent with
  | sourceFile => child.isTopItem
  | module _ => child.isModuleItem
  | generateBlock _ => child.isDesignItem
  | .class _ _ => child.isClassItem
  | method _ _ | function _ _ => child.isCallItem
  | package _ => child.isPackageImport
  | interface _ => child.isInterfaceItem
  | coverGroup _ => child.isCoverPoint
  | _ => false

def edge : NodeKind ν → EdgeType
  | modulePort _ _ | signalDecl _ _ | tlmPort _ _ | property _ | method _ _ => .defines
  | factoryReg _ _ => .factoryRegisters
  | factoryOverride _ _ => .factoryOverrides
  | _ => .contains

def edgeIn (parent : NodeKind ν) (child : NodeKind μ) : EdgeType :=
  match parent with
  | interface _ => .contains
  | _ => child.edge

def admits (parent : NodeKind ν) (edge : EdgeType) (child : NodeKind μ) : Bool :=
  parent.holds child && edge = parent.edgeIn child

variable {symbols : SymbolTable} {kind kind' : NodeKind InternedString}
  {named named' : NodeKind Text}

theorem admits_of_resolve (h : kind.resolve symbols = some named)
    (h' : kind'.resolve symbols = some named') {edge : EdgeType}
    (hadmits : named.admits edge named' = true)
    : kind.admits edge kind' = true := by
  have hparent : ∀ child : NodeKind InternedString, kind.holds child = named.holds child
      ∧ kind.edgeIn child = named.edgeIn child := by
    intro child
    cases says_of_resolve h <;> exact ⟨rfl, rfl⟩
  have hchild : named.holds kind' = named.holds named'
      ∧ named.edgeIn kind' = named.edgeIn named' := by
    cases says_of_resolve h' <;> exact ⟨rfl, rfl⟩
  rw [admits, (hparent kind').1, (hparent kind').2, hchild.1, hchild.2]
  exact hadmits

end NodeKind

namespace Outline

def Fits (parent child : Declared) : Prop := parent.kind.admits child.edge child.kind = true

def Below (parent : NodeKind Text) (os : List Outline) : Prop :=
  Rose.TypedAll Fits (fun d => parent.admits d.edge d.kind = true) os

variable {parent parent' : NodeKind Text} {os os' : List Outline}

@[simp]
theorem below_nil : Below parent [] := .nil

theorem below_leaf {node : Cst} {kind : NodeKind Text} {edge : EdgeType}
    (h : parent.admits edge kind = true)
    : Below parent [.leaf node kind edge] :=
  .node h .nil

theorem below_node {kind : NodeKind Text} {edge : EdgeType} {pos : Position}
    (h : parent.admits edge kind = true) (hos : Below kind os)
    : Below parent [.node ⟨kind, edge, pos⟩ os] :=
  .node h hos

theorem below_append (h : Below parent os) (h' : Below parent os')
    : Below parent (os ++ os') := .append h h'

theorem below_flatMap {α : Type} {xs : List α} {f : α → List Outline} (h : ∀ x, Below parent (f x))
    : Below parent (xs.flatMap f) :=
  .flatMap fun x _ => h x

theorem Below.mono (h : Below parent os)
    (hadmits : ∀ edge (child : NodeKind Text), parent.admits edge child = true →
      parent'.admits edge child = true)
    : Below parent' os where
  admitted t ht := hadmits _ _ (h.admitted t ht)
  typed := h.typed

theorem Below.ofGenerateBlock {kind : GenerateKind} (h : Below (.generateBlock kind) os)
    (name : Text) : Below (.module name) os := by
  apply h.mono
  intro edge child hadmits
  cases child <;> first | exact hadmits | exact Bool.noConfusion hadmits

theorem Below.ofMethod {name : Text} {isVirtual : Bool} (h : Below (.method name isVirtual) os)
    : (∀ name isTask, Below (.function name isTask) os) ∧ ∀ name, Below (.module name) os := by
  constructor
  . intro name isTask
    exact h.mono fun edge child hadmits => by cases child <;> exact hadmits
  . intro name
    apply h.mono
    intro edge child hadmits
    cases child <;> first | exact hadmits | exact Bool.noConfusion hadmits

end Outline

namespace GraphExtractor

open Outline

section Declarations

variable {name : Text} {kind : GenerateKind}

theorem below_portOutline (node : Cst) : Below (.module name) (portOutline node) := by
  unfold portOutline
  dsimp only
  split
  . exact below_leaf rfl
  . exact below_nil

theorem below_portsOutline (node : Cst) : Below (.module name) (portsOutline node) := by
  apply below_flatMap
  intro child
  split
  . apply below_portOutline
  . apply below_portOutline
  . exact below_nil

theorem below_signalOutline (node : Cst) : Below (.generateBlock kind) (signalOutline node) := by
  apply below_flatMap
  intro name
  exact below_leaf rfl

theorem below_alwaysOutline (node : Cst) : Below (.generateBlock kind) (alwaysOutline node) :=
  below_leaf rfl

theorem below_assignOutline (node : Cst) : Below (.generateBlock kind) (assignOutline node) :=
  below_leaf rfl

theorem below_instanceOutline (node : Cst)
    : Below (.generateBlock kind) (instanceOutline node) := by
  have hinstance : ∀ child moduleType,
      Below (.generateBlock kind) (hierarchicalInstanceOutline child moduleType) := by
    intro child moduleType
    apply below_flatMap
    intro item
    split
    . split
      . exact below_leaf rfl
      . exact below_nil
    . exact below_nil
  unfold instanceOutline
  dsimp only
  split
  . exact below_nil
  . apply below_flatMap
    intro child
    split
    . apply hinstance
    . exact below_nil

theorem below_namedOutline {parent : NodeKind Text} {kind : ∀ {ν : Type}, ν → NodeKind ν}
    (h : ∀ name : Text, parent.admits .contains (kind name) = true) (node : Cst)
    : Below parent (namedOutline kind node) := by
  unfold namedOutline
  dsimp only
  split
  . exact below_leaf (h _)
  . exact below_nil

theorem below_assertionOutline (node : Cst) : Below (.generateBlock kind) (assertionOutline node) :=
  below_leaf rfl

theorem below_covergroupOutline (node : Cst)
    : Below (.generateBlock kind) (covergroupOutline node) := by
  unfold covergroupOutline
  dsimp only
  split
  . refine below_node rfl (below_flatMap ?_)
    intro child
    split
    . exact below_namedOutline (fun _ => rfl) child
    . exact below_nil
  . exact below_nil

theorem below_dpiOutline (node : Cst) : Below (.generateBlock kind) (dpiOutline node) := by
  unfold dpiOutline
  dsimp only
  split
  . exact below_leaf rfl
  . exact below_nil

theorem below_bindOutline {parent : NodeKind Text}
    (h : ∀ moduleType : Text, parent.admits .contains (.bindDirective moduleType) = true)
    (node : Cst)
    : Below parent (bindOutline node) := by
  unfold bindOutline
  dsimp only
  split
  . exact below_leaf (h _)
  . exact below_nil

end Declarations

section Uvm

variable {name : Text} {isVirtual : Bool}

theorem below_tlmPortOutline (node : Cst) : Below (.module name) (tlmPortOutline node) := by
  unfold tlmPortOutline
  split
  . apply below_flatMap
    intro child
    split
    . apply below_flatMap
      intro varDecl
      split
      . split
        . exact below_leaf rfl
        . exact below_nil
      . exact below_nil
    . exact below_nil
  . exact below_nil

theorem below_factoryRegistrationOutline {parent : NodeKind Text}
    (h : ∀ typeName baseType : Text, parent.admits .factoryRegisters (.factoryReg typeName baseType)
      = true) (node : Cst)
    : Below parent (factoryRegistrationOutline node) := by
  unfold factoryRegistrationOutline
  split
  . exact below_leaf (h _ _)
  . exact below_nil

theorem below_configDbSetOutline (node : Cst)
    : Below (.method name isVirtual) (configDbSetOutline node) := by
  unfold configDbSetOutline
  split
  . exact below_leaf rfl
  . exact below_nil

theorem below_configDbGetOutline (node : Cst)
    : Below (.method name isVirtual) (configDbGetOutline node) := by
  unfold configDbGetOutline
  split
  . exact below_leaf rfl
  . exact below_nil

theorem below_methodCallOutline (node : Cst)
    : Below (.method name isVirtual) (methodCallOutline node) := by
  have hcreate : Below (.method name isVirtual) (factoryCreateOutline node) := by
    unfold factoryCreateOutline
    split
    . exact below_leaf rfl
    . exact below_nil
  have hoverride : Below (.method name isVirtual) (factoryOverrideOutline node) := by
    unfold factoryOverrideOutline
    split
    . exact below_leaf rfl
    . exact below_nil
  unfold methodCallOutline
  dsimp only
  repeat' split
  . exact below_leaf rfl
  . apply below_configDbSetOutline
  . apply below_configDbGetOutline
  . exact hcreate
  . exact hoverride
  . exact below_nil

theorem below_tfCallOutline (node : Cst) : Below (.method name isVirtual) (tfCallOutline node) := by
  have hcreate : ∀ fragments,
      Below (.method name isVirtual) (factoryCreateViaTfOutline node fragments) := by
    intro fragments
    unfold factoryCreateViaTfOutline
    dsimp only
    split
    . exact below_leaf rfl
    . exact below_nil
  have hoverride : ∀ fragments,
      Below (.method name isVirtual) (factoryOverrideViaTfOutline node fragments) := by
    intro fragments
    unfold factoryOverrideViaTfOutline
    split
    . exact below_leaf rfl
    . exact below_nil
  unfold tfCallOutline
  dsimp only
  repeat' split
  . exact below_nil
  . apply hcreate
  . exact below_nil
  . apply hoverride
  . apply below_configDbSetOutline
  . apply below_configDbGetOutline
  . exact below_nil

mutual

theorem below_methodCallsOutline
    : (node : Cst) → Below (.method name isVirtual) (methodCallsOutline node)
  | .node _ _ _ _ children => by
    rw [methodCallsOutline]
    apply below_methodCallsInOutline

theorem below_methodCallsInOutline
    : (children : List Cst) → Below (.method name isVirtual) (methodCallsInOutline children)
  | [] => by
    rw [methodCallsInOutline]
    exact below_nil
  | child :: rest => by
    rw [methodCallsInOutline]
    refine below_append ?_ (below_methodCallsInOutline rest)
    split
    . apply below_methodCallOutline
    . apply below_tfCallOutline
    . apply below_methodCallsOutline

end

end Uvm

section Constructs

variable {kind : GenerateKind}

mutual

theorem below_generateForOutline {kind : GenerateKind}
    : (node : Cst) → Below (.generateBlock kind) (generateForOutline node)
  | .node _ _ _ _ children => by
    rw [generateForOutline]
    exact below_node rfl (below_generateBlocksOutline children)

theorem below_generateIfOutline {kind : GenerateKind}
    : (node : Cst) → Below (.generateBlock kind) (generateIfOutline node)
  | .node _ _ _ _ children => by
    rw [generateIfOutline]
    apply below_generateConditionsOutline

theorem below_generateRegionOutline {kind : GenerateKind}
    : (node : Cst) → Below (.generateBlock kind) (generateRegionOutline node)
  | .node _ _ _ _ children => by
    rw [generateRegionOutline]
    exact below_node rfl (below_generateItemsOutline children)

theorem below_ifGenerateOutline {kind : GenerateKind}
    : (node : Cst) → Below (.generateBlock kind) (ifGenerateOutline node)
  | .node _ _ _ _ children => by
    rw [ifGenerateOutline]
    apply below_ifBranchesOutline

theorem below_caseGenerateOutline {kind : GenerateKind}
    : (node : Cst) → Below (.generateBlock kind) (caseGenerateOutline node)
  | .node _ _ _ _ children => by
    rw [caseGenerateOutline]
    apply below_caseItemsOutline

theorem below_generateBlockOutline {kind : GenerateKind}
    : (node : Cst) → Below (.generateBlock kind) (generateBlockOutline node)
  | .node _ _ _ _ children => by
    rw [generateBlockOutline]
    apply below_generateItemsOutline

theorem below_generateBlocksOutline {kind : GenerateKind}
    : (children : List Cst) → Below (.generateBlock kind) (generateBlocksOutline children)
  | [] => by
    rw [generateBlocksOutline]
    exact below_nil
  | child :: rest => by
    rw [generateBlocksOutline]
    refine below_append ?_ (below_generateBlocksOutline rest)
    split
    . apply below_generateBlockOutline
    . exact below_nil

theorem below_generateConditionsOutline {kind : GenerateKind}
    : (children : List Cst) → Below (.generateBlock kind) (generateConditionsOutline children)
  | [] => by
    rw [generateConditionsOutline]
    exact below_nil
  | child :: rest => by
    rw [generateConditionsOutline]
    refine below_append ?_ (below_generateConditionsOutline rest)
    split
    . apply below_ifGenerateOutline
    . apply below_caseGenerateOutline
    . exact below_nil

theorem below_ifBranchesOutline {kind : GenerateKind}
    : (children : List Cst) → Below (.generateBlock kind) (ifBranchesOutline children)
  | [] => by
    rw [ifBranchesOutline]
    exact below_nil
  | child :: rest => by
    rw [ifBranchesOutline]
    refine below_append ?_ (below_ifBranchesOutline rest)
    split
    . exact below_node rfl (below_generateBlockOutline child)
    . exact below_nil

theorem below_caseItemsOutline {kind : GenerateKind}
    : (children : List Cst) → Below (.generateBlock kind) (caseItemsOutline children)
  | [] => by
    rw [caseItemsOutline]
    exact below_nil
  | .node _ _ _ _ itemChildren :: rest => by
    rw [caseItemsOutline]
    refine below_append ?_ (below_caseItemsOutline rest)
    split
    . exact below_node rfl (below_generateBlocksOutline itemChildren)
    . exact below_nil

theorem below_generateItemsOutline {kind : GenerateKind}
    : (children : List Cst) → Below (.generateBlock kind) (generateItemsOutline children)
  | [] => by
    rw [generateItemsOutline]
    exact below_nil
  | child :: rest => by
    rw [generateItemsOutline]
    refine below_append ?_ (below_generateItemsOutline rest)
    split
    . apply below_generateForOutline
    . apply below_generateIfOutline
    . apply below_generateRegionOutline
    . apply below_instanceOutline
    . apply below_instanceOutline
    . apply below_instanceOutline
    . apply below_instanceOutline
    . apply below_signalOutline
    . apply below_signalOutline
    . apply below_alwaysOutline
    . apply below_assignOutline
    . apply below_assertionOutline
    . apply below_covergroupOutline
    . exact below_namedOutline (fun _ => rfl) child
    . exact below_namedOutline (fun _ => rfl) child
    . apply below_dpiOutline
    . exact below_bindOutline (fun _ => rfl) child
    . exact below_nil

end

theorem below_classPropertyOutline {name : Text} {parent : Option Text} (node : Cst)
    : Below (.class name parent) (classPropertyOutline node) := by
  apply below_flatMap
  intro child
  split
  . refine below_append (below_flatMap fun _ => below_leaf rfl)
      (below_factoryRegistrationOutline (fun _ _ => rfl) child)
  . exact below_nil

theorem below_classMethodOutline {name : Text} {parent : Option Text} (node : Cst)
    : Below (.class name parent) (classMethodOutline node) := by
  unfold classMethodOutline
  dsimp only
  split
  . exact below_node rfl (below_methodCallsOutline node)
  . exact below_nil

mutual

theorem below_classOutline {parent : NodeKind Text}
    (h : ∀ name extended, parent.admits .contains (.class name extended : NodeKind Text) = true)
    : (node : Cst) → Below parent (classOutline node).toList
  | .node _ _ _ _ children => by
    rw [classOutline]
    split
    . exact below_nil
    . rw [Option.toList_some]
      exact below_node (h _ _) (below_classBodyOutline children)

theorem below_classBodyOutline {name : Text} {extended : Option Text}
    : (children : List Cst) → Below (.class name extended) (classBodyOutline children)
  | [] => by
    rw [classBodyOutline]
    exact below_nil
  | child :: rest => by
    rw [classBodyOutline]
    refine below_append ?_ (below_classBodyOutline rest)
    split
    . apply below_classItemOutline
    . exact below_nil

theorem below_classItemOutline {name : Text} {extended : Option Text}
    : (node : Cst) → Below (.class name extended) (classItemOutline node)
  | .node _ _ _ _ children => by
    rw [classItemOutline]
    apply below_classItemsOutline

theorem below_classItemsOutline {name : Text} {extended : Option Text}
    : (children : List Cst) → Below (.class name extended) (classItemsOutline children)
  | [] => by
    rw [classItemsOutline]
    exact below_nil
  | child :: rest => by
    rw [classItemsOutline]
    refine below_append ?_ (below_classItemsOutline rest)
    split
    . apply below_classPropertyOutline
    . apply below_classMethodOutline
    . exact below_classOutline (fun _ _ => rfl) child
    . exact below_nil

end

theorem below_packageOutline (node : Cst) : Below .sourceFile (packageOutline node).toList := by
  have himport : ∀ name child, Below (.package name) (packageImportOutline child) := by
    intro name child
    apply below_flatMap
    intro item
    split
    . exact below_leaf rfl
    . exact below_nil
  have hexport : ∀ name child, Below (.package name) (packageExportOutline child) := by
    intro name child
    apply below_flatMap
    intro item
    split
    . split
      . exact below_leaf rfl
      . exact below_nil
    . split
      . exact below_leaf rfl
      . exact below_nil
  unfold packageOutline
  dsimp only
  split
  . exact below_nil
  . rw [Option.toList_some]
    refine below_node rfl (below_flatMap ?_)
    intro child
    split
    . apply below_flatMap
      intro item
      split
      . apply himport
      . apply hexport
      . exact below_nil
    . exact below_nil

theorem below_interfaceOutline {parent : NodeKind Text}
    (h : ∀ name, parent.admits .contains (.interface name : NodeKind Text) = true) (node : Cst)
    : Below parent (interfaceOutline node).toList := by
  have hmodport : ∀ name child, Below (.interface name) (modportOutline child) := by
    intro name child
    apply below_flatMap
    intro item
    split
    . split
      . exact below_leaf rfl
      . exact below_nil
    . exact below_nil
  have hclocking : ∀ name child, Below (.interface name) (clockingOutline child) := by
    intro name child
    unfold clockingOutline
    dsimp only
    split
    . exact below_leaf rfl
    . exact below_nil
  have hitem : ∀ name child, Below (.interface name) (interfaceItemOutline child) := by
    intro name child
    apply below_flatMap
    intro item
    split
    . apply hmodport
    . apply hclocking
    . exact below_nil
  unfold interfaceOutline
  dsimp only
  split
  . exact below_nil
  . rw [Option.toList_some]
    refine below_node (h _) (below_flatMap ?_)
    intro child
    unfold interfaceChildOutline
    split
    . apply hitem
    . apply hmodport
    . apply hclocking
    . exact below_nil

end Constructs

section Modules

variable {name : Text}

theorem below_functionOutline (node : Cst) : Below (.module name) (functionOutline node) := by
  unfold functionOutline
  dsimp only
  split
  . have hcalls : Below (.method [] false) (methodCallsOutline node) :=
      below_methodCallsOutline node
    exact below_node rfl (hcalls.ofMethod.1 _ _)
  . exact below_nil

theorem below_declarationOutline (node : Cst) : Below (.module name) (declarationOutline node) := by
  rw [declarationOutline]
  refine below_append ?_ (below_factoryRegistrationOutline (fun _ _ => rfl) node)
  split
  . apply below_tlmPortOutline
  . have hsignal : Below (.generateBlock .loop) (signalOutline node) := below_signalOutline node
    exact hsignal.ofGenerateBlock name

theorem below_calls (node : Cst) : Below (.module name) (methodCallsOutline node) := by
  have hcalls : Below (.method [] false) (methodCallsOutline node) := below_methodCallsOutline node
  exact hcalls.ofMethod.2 name

theorem below_alwaysWithCalls (node : Cst)
    : Below (.module name) (alwaysOutline node ++ methodCallsOutline node) := by
  have halways : Below (.generateBlock .loop) (alwaysOutline node) := below_alwaysOutline node
  exact below_append (halways.ofGenerateBlock name) (below_calls node)

theorem below_moduleBodyChildOutline (child : Cst)
    : Below (.module name) (moduleBodyChildOutline child) := by
  have hdesign : ∀ {os}, Below (.generateBlock .loop) os → Below (.module name) os :=
    fun h => h.ofGenerateBlock name
  unfold moduleBodyChildOutline
  split
  . apply below_declarationOutline
  . apply below_declarationOutline
  . apply below_alwaysWithCalls
  . apply below_calls
  . apply below_calls
  . exact hdesign (below_instanceOutline child)
  . exact hdesign (below_instanceOutline child)
  . exact hdesign (below_assignOutline child)
  . exact hdesign (below_generateForOutline child)
  . exact hdesign (below_generateIfOutline child)
  . exact hdesign (below_generateRegionOutline child)
  . exact hdesign (below_assertionOutline child)
  . exact hdesign (below_covergroupOutline child)
  . exact below_namedOutline (fun _ => rfl) child
  . exact below_namedOutline (fun _ => rfl) child
  . exact hdesign (below_dpiOutline child)
  . exact below_bindOutline (fun _ => rfl) child
  . exact below_namedOutline (fun _ => rfl) child
  . exact below_classOutline (fun _ _ => rfl) child
  . exact below_interfaceOutline (fun _ => rfl) child
  . exact below_nil

theorem below_headerOutline (node : Cst) : Below (.module name) (headerOutline node) := by
  apply below_flatMap
  intro hchild
  split
  . apply below_portsOutline
  . exact below_nil

theorem below_moduleChildOutline (child : Cst)
    : Below (.module name) (moduleChildOutline child) := by
  have hdesign : ∀ {os}, Below (.generateBlock .loop) os → Below (.module name) os :=
    fun h => h.ofGenerateBlock name
  unfold moduleChildOutline
  split
  . apply below_headerOutline
  . apply below_headerOutline
  . apply below_headerOutline
  . apply below_declarationOutline
  . apply below_declarationOutline
  . apply below_alwaysWithCalls
  . apply below_calls
  . apply below_calls
  . exact hdesign (below_instanceOutline child)
  . exact hdesign (below_instanceOutline child)
  . exact hdesign (below_instanceOutline child)
  . exact hdesign (below_instanceOutline child)
  . exact hdesign (below_assignOutline child)
  . apply below_functionOutline
  . apply below_functionOutline
  . exact hdesign (below_generateForOutline child)
  . exact hdesign (below_generateIfOutline child)
  . exact hdesign (below_generateRegionOutline child)
  . exact hdesign (below_assertionOutline child)
  . exact hdesign (below_covergroupOutline child)
  . exact below_namedOutline (fun _ => rfl) child
  . exact below_namedOutline (fun _ => rfl) child
  . exact hdesign (below_dpiOutline child)
  . exact below_bindOutline (fun _ => rfl) child
  . exact below_namedOutline (fun _ => rfl) child
  . exact below_flatMap below_moduleBodyChildOutline
  . exact below_classOutline (fun _ _ => rfl) child
  . exact below_interfaceOutline (fun _ => rfl) child
  . exact below_nil

theorem below_topItems (child : Cst)
    : Below .sourceFile ((topItems child).map TopItem.outline) := by
  have hdeclared : ∀ os : List Outline, (os.map TopItem.declared).map TopItem.outline = os := by
    intro os
    rw [List.map_map]
    exact List.map_id os
  have hclass : ∀ os : List Outline, (os.map TopItem.class).map TopItem.outline = os := by
    intro os
    rw [List.map_map]
    exact List.map_id os
  unfold topItems
  split
  . exact below_node rfl (below_flatMap below_moduleChildOutline)
  . rw [hdeclared]
    exact below_namedOutline (fun _ => rfl) child
  . rw [hdeclared]
    exact below_bindOutline (fun _ => rfl) child
  . rw [hdeclared]
    exact below_packageOutline child
  . rw [hdeclared]
    exact below_interfaceOutline (fun _ => rfl) child
  . rw [hclass]
    exact below_classOutline (fun _ _ => rfl) child
  . exact below_nil

theorem below_fileOutline (tree : Cst)
    : Below .sourceFile ((fileOutline tree).items.map TopItem.outline) := by
  rw [fileOutline, List.map_flatMap]
  exact below_flatMap below_topItems

end Modules

end GraphExtractor

/-! ## The edges of a file -/

namespace FileOutline

open ExtractM Outline

/-- Along the edges of a file every kind of node is where the schema lets it be. -/
theorem admits_of_mem_edgesAt {file : FileOutline}
    (h : Below .sourceFile (file.items.map TopItem.outline))
    (hregular : ∀ item ∈ file.items, item.Regular) {b : NodeId} {e : Edge} (he : e ∈ file.edgesAt b)
    {source target : NamedNode} (hsource : source ∈ file.nodesAt b)
    (htarget : target ∈ file.nodesAt b) (hsourceId : source.id = e.source)
    (htargetId : target.id = e.target)
    : source.kind.admits e.edgeType target.kind = true := by
  obtain ⟨x, hx, rfl⟩ := TopItem.exists_of_mem_edgesAllAt hregular he
  -- A node other than that of the file is the one placed under its id
  have hplaced : ∀ {n : NamedNode}, n ∈ file.nodesAt b →
      n = file.rootNode b ∨ ∃ y ∈ Rose.placeAll b (b + 1) (file.items.map TopItem.outline),
        n = y.label.namedNode y.id := by
    intro n hn
    rcases List.mem_cons.mp hn with hn | hn
    . exact .inl hn
    . obtain ⟨y, hy, heq⟩ := List.mem_map.mp (TopItem.nodesAllAt_subset _ _ _ hn)
      exact .inr ⟨y, hy, heq.symm⟩
  have hlt : ∀ {y}, y ∈ Rose.placeAll b (b + 1) (file.items.map TopItem.outline) → b < y.id :=
    fun hy => (Rose.id_mem_placeAll hy).1
  have hkind : target.kind = x.label.kind := by
    rcases hplaced htarget with rfl | ⟨y, hy, rfl⟩
    . exact absurd htargetId (Nat.ne_of_lt (hlt hx))
    . rw [Rose.eq_of_id_eq hy hx htargetId]
      rfl
  rw [hkind]
  rcases Rose.TypedAll.admitted_placeAll b (b + 1) h x hx with ⟨hparent, hadmits⟩ | ⟨y, hy,
    hparent, hadmits⟩
  . rcases hplaced hsource with rfl | ⟨z, hz, rfl⟩
    . exact hadmits
    . exact absurd (hsourceId.trans hparent) (Nat.ne_of_gt (hlt hz))
  . rcases hplaced hsource with rfl | ⟨z, hz, rfl⟩
    . exact absurd (hparent.trans hsourceId.symm) (Nat.ne_of_gt (hlt hy))
    . rw [Rose.eq_of_id_eq hz hy (hsourceId.trans hparent.symm)]
      exact hadmits

end FileOutline
end HdlGraph
