import HdlGraph.Library.Origins
import HdlGraph.Parse.Extractor.TopItems

/-!
This module contains the origins of the extracted nodes: each one is declared by a syntax node of a
kind that declares such nodes, starts where this one starts, and is inside of what its parent comes
from.
-/

namespace HdlGraph

def SyntaxKind.gives (kind : SyntaxKind) : NodeKind ν → Bool
  | .module _ => kind = .moduleDeclaration
  | .modulePort _ _ => kind = .portDeclaration || kind = .ansiPortDeclaration
  | .moduleInstance _ _ => kind = .hierarchicalInstance
  | .generateBlock .for => kind = .loopGenerateConstruct
  | .generateBlock .if => kind = .generateBlock
  | .generateBlock .case => kind = .caseGenerateItem
  | .generateBlock .loop => kind = .generateRegion
  | .alwaysBlock _ => kind = .alwaysConstruct
  | .signalDecl _ _ =>
    kind = .netDeclaration || kind = .dataDeclaration || kind = .clockingDeclaration
  | .assignment => kind = .continuousAssign
  | .function _ _ => kind = .functionDeclaration || kind = .taskDeclaration
  | .class _ _ => kind = .classDeclaration
  | .method _ _ => kind = .classMethod
  | .property _ => kind = .dataDeclaration
  | .package _ => kind = .packageDeclaration
  -- An export of everything is found by its text
  | .packageImport _ => true
  | .interface _ => kind = .interfaceDeclaration
  | .modport _ => kind = .modportItem
  | .factoryReg _ _ => kind = .netDeclaration || kind = .dataDeclaration
  | .factoryCreate _ => kind = .methodCall || kind = .tfCall
  | .factoryOverride _ _ => kind = .methodCall || kind = .tfCall
  | .tlmPort _ _ => kind = .variableDeclAssignment
  | .tlmBinding => kind = .methodCall
  | .configDBSet _ => kind = .methodCall || kind = .tfCall
  | .configDBGet _ => kind = .methodCall || kind = .tfCall
  | .assertProperty => kind = .concurrentAssertionItem
  | .sequenceDecl _ => kind = .sequenceDeclaration
  | .propertyDecl _ => kind = .propertyDeclaration
  | .coverGroup _ => kind = .covergroupDeclaration
  | .coverPoint _ => kind = .coverPoint
  | .dpiImport _ => kind = .dpiImportExport
  | .bindDirective _ => kind = .bindDirective
  | .configBlock _ => kind = .configDeclaration
  -- The node of the file stands for the tree, and no code of the extractor makes the others
  | .sourceFile | .portConnection _ _ | .beginBlock _ | .variableRef _ | .callSite
      _ | .parameter _ => false

namespace Cst

def Child (node child : Cst) : Prop := child ∈ node.children

-- The second node is the first one or stands in it
def Inside : Cst → Cst → Prop := Relation.ReflTransGen Child

def Declares (node : Cst) (d : Declared) : Prop := d.pos = node.pos ∧ node.kind.gives d.kind = true

def Draws (node : Cst) (os : List Outline) : Prop := Rose.DrawnAll Child Declares node os

variable {node child : Cst} {os : List Outline}

theorem draws_leaf {kind : NodeKind Text} (h : node.kind.gives kind = true) (edge : EdgeType)
    : node.Draws [.leaf node kind edge] :=
  .node ⟨rfl, h⟩ .nil

theorem draws_node {kind : NodeKind Text} (h : node.kind.gives kind = true) (edge : EdgeType)
    (hos : node.Draws os)
    : node.Draws [.node ⟨kind, edge, node.pos⟩ os] :=
  .node ⟨rfl, h⟩ hos

theorem draws_flatMap {f : Cst → List Outline} (h : ∀ child ∈ node.children, child.Draws (f child))
    : node.Draws (node.children.flatMap f) :=
  .flatMap fun child hchild => (h child hchild).ofChild hchild

end Cst

namespace GraphExtractor

open Cst

section Declarations

theorem draws_portOutline {node : Cst}
    (h : node.kind = .portDeclaration ∨ node.kind = .ansiPortDeclaration)
    : node.Draws (portOutline node) := by
  unfold portOutline
  dsimp only
  split
  . apply draws_leaf
    rcases h with h | h <;> rw [h] <;> rfl
  . exact .nil

theorem draws_portsOutline (node : Cst) : node.Draws (portsOutline node) := by
  apply draws_flatMap
  intro child _
  split
  . next h => exact draws_portOutline (.inl h)
  . next h => exact draws_portOutline (.inr h)
  . exact .nil

theorem draws_signalOutline {node : Cst}
    (h : node.kind = .netDeclaration ∨ node.kind = .dataDeclaration)
    : node.Draws (signalOutline node) := by
  apply Rose.DrawnAll.flatMap
  intro name _
  apply draws_leaf
  rcases h with h | h <;> rw [h] <;> rfl

theorem draws_alwaysOutline {node : Cst} (h : node.kind = .alwaysConstruct)
    : node.Draws (alwaysOutline node) :=
  draws_leaf (by rw [h]; rfl) _

theorem draws_assignOutline {node : Cst} (h : node.kind = .continuousAssign)
    : node.Draws (assignOutline node) :=
  draws_leaf (by rw [h]; rfl) _

theorem draws_hierarchicalInstanceOutline {node : Cst} (h : node.kind = .hierarchicalInstance)
    (moduleType : Text)
    : node.Draws (hierarchicalInstanceOutline node moduleType) := by
  apply Rose.DrawnAll.flatMap
  intro child _
  split
  . split
    . exact draws_leaf (by rw [h]; rfl) _
    . exact .nil
  . exact .nil

theorem draws_instanceOutline (node : Cst) : node.Draws (instanceOutline node) := by
  unfold instanceOutline
  dsimp only
  split
  . exact .nil
  . apply draws_flatMap
    intro child _
    split
    . next h => exact draws_hierarchicalInstanceOutline h _
    . exact .nil

theorem draws_namedOutline {kind : ∀ {ν : Type}, ν → NodeKind ν} {node : Cst}
    (h : ∀ name : Text, node.kind.gives (kind name) = true)
    : node.Draws (namedOutline kind node) := by
  unfold namedOutline
  dsimp only
  split
  . exact draws_leaf (h _) _
  . exact .nil

theorem draws_assertionOutline {node : Cst} (h : node.kind = .concurrentAssertionItem)
    : node.Draws (assertionOutline node) :=
  draws_leaf (by rw [h]; rfl) _

theorem draws_covergroupOutline {node : Cst} (h : node.kind = .covergroupDeclaration)
    : node.Draws (covergroupOutline node) := by
  unfold covergroupOutline
  dsimp only
  split
  . refine draws_node (by rw [h]; rfl) _ (draws_flatMap ?_)
    intro child _
    split
    . next hchild => exact draws_namedOutline fun _ => by rw [hchild]; rfl
    . exact .nil
  . exact .nil

theorem draws_dpiOutline {node : Cst} (h : node.kind = .dpiImportExport)
    : node.Draws (dpiOutline node) := by
  unfold dpiOutline
  dsimp only
  split
  . exact draws_leaf (by rw [h]; rfl) _
  . exact .nil

theorem draws_bindOutline {node : Cst} (h : node.kind = .bindDirective)
    : node.Draws (bindOutline node) := by
  unfold bindOutline
  dsimp only
  split
  . exact draws_leaf (by rw [h]; rfl) _
  . exact .nil

end Declarations

section Uvm

theorem draws_tlmPortOutline (node : Cst) : node.Draws (tlmPortOutline node) := by
  have hvariables : ∀ (child : Cst) (dir : TLMDirection),
      child.Draws (tlmVariablesOutline child dir) := by
    intro child dir
    apply draws_flatMap
    intro varDecl _
    split
    . next h =>
      split
      . exact draws_leaf (by rw [h]; rfl) _
      . exact .nil
    . exact .nil
  unfold tlmPortOutline
  split
  . apply draws_flatMap
    intro child _
    split
    . apply hvariables
    . exact .nil
  . exact .nil

theorem draws_factoryRegistrationOutline {node : Cst}
    (h : node.kind = .netDeclaration ∨ node.kind = .dataDeclaration)
    : node.Draws (factoryRegistrationOutline node) := by
  unfold factoryRegistrationOutline
  split
  . apply draws_leaf
    rcases h with h | h <;> rw [h] <;> rfl
  . exact .nil

section

variable {node : Cst} (h : node.kind = .methodCall ∨ node.kind = .tfCall)

include h

theorem draws_configDbSetOutline : node.Draws (configDbSetOutline node) := by
  unfold configDbSetOutline
  split
  . apply draws_leaf
    rcases h with h | h <;> rw [h] <;> rfl
  . exact .nil

theorem draws_configDbGetOutline : node.Draws (configDbGetOutline node) := by
  unfold configDbGetOutline
  split
  . apply draws_leaf
    rcases h with h | h <;> rw [h] <;> rfl
  . exact .nil

theorem draws_factoryCreateOutline : node.Draws (factoryCreateOutline node) := by
  unfold factoryCreateOutline
  split
  . apply draws_leaf
    rcases h with h | h <;> rw [h] <;> rfl
  . exact .nil

theorem draws_factoryOverrideOutline : node.Draws (factoryOverrideOutline node) := by
  unfold factoryOverrideOutline
  split
  . apply draws_leaf
    rcases h with h | h <;> rw [h] <;> rfl
  . exact .nil

theorem draws_factoryCreateViaTfOutline (scopeFragments : List Text)
    : node.Draws (factoryCreateViaTfOutline node scopeFragments) := by
  unfold factoryCreateViaTfOutline
  dsimp only
  split
  . apply draws_leaf
    rcases h with h | h <;> rw [h] <;> rfl
  . exact .nil

theorem draws_factoryOverrideViaTfOutline (scopeFragments : List Text)
    : node.Draws (factoryOverrideViaTfOutline node scopeFragments) := by
  unfold factoryOverrideViaTfOutline
  split
  . apply draws_leaf
    rcases h with h | h <;> rw [h] <;> rfl
  . exact .nil

end

theorem draws_methodCallOutline {node : Cst} (h : node.kind = .methodCall)
    : node.Draws (methodCallOutline node) := by
  unfold methodCallOutline
  dsimp only
  repeat' split
  . exact draws_leaf (by rw [h]; rfl) _
  . exact draws_configDbSetOutline (.inl h)
  . exact draws_configDbGetOutline (.inl h)
  . exact draws_factoryCreateOutline (.inl h)
  . exact draws_factoryOverrideOutline (.inl h)
  . exact .nil

theorem draws_tfCallOutline {node : Cst} (h : node.kind = .tfCall)
    : node.Draws (tfCallOutline node) := by
  unfold tfCallOutline
  dsimp only
  repeat' split
  . exact .nil
  . exact draws_factoryCreateViaTfOutline (.inr h) _
  . exact .nil
  . exact draws_factoryOverrideViaTfOutline (.inr h) _
  . exact draws_configDbSetOutline (.inr h)
  . exact draws_configDbGetOutline (.inr h)
  . exact .nil

mutual

theorem draws_methodCallsOutline : (node : Cst) → node.Draws (methodCallsOutline node)
  | .node _ _ _ _ children => by
    rw [methodCallsOutline]
    exact draws_methodCallsInOutline children fun _ h => h

theorem draws_methodCallsInOutline {node : Cst}
    : (children : List Cst) → children ⊆ node.children → node.Draws (methodCallsInOutline children)
  | [], _ => by
    rw [methodCallsInOutline]
    exact .nil
  | child :: rest, h => by
    have hchild : Child node child := h List.mem_cons_self
    rw [methodCallsInOutline]
    refine .append (.ofChild ?_ hchild)
      (draws_methodCallsInOutline rest fun _ hc => h (List.mem_cons_of_mem _ hc))
    split
    . next hkind => exact draws_methodCallOutline hkind
    . next hkind => exact draws_tfCallOutline hkind
    . apply draws_methodCallsOutline

end

end Uvm

section Constructs

mutual

theorem draws_generateForOutline : (node : Cst) → node.kind = .loopGenerateConstruct →
    node.Draws (generateForOutline node)
  | .node kind fields text pos children, h => by
    rw [generateForOutline]
    exact draws_node (by rw [h]; rfl) _ (draws_generateBlocksOutline children fun _ hc => hc)

theorem draws_generateIfOutline : (node : Cst) → node.Draws (generateIfOutline node)
  | .node _ _ _ _ children => by
    rw [generateIfOutline]
    exact draws_generateConditionsOutline children fun _ hc => hc

theorem draws_generateRegionOutline : (node : Cst) → node.kind = .generateRegion →
    node.Draws (generateRegionOutline node)
  | .node kind fields text pos children, h => by
    rw [generateRegionOutline]
    exact draws_node (by rw [h]; rfl) _ (draws_generateItemsOutline children fun _ hc => hc)

theorem draws_ifGenerateOutline : (node : Cst) → node.Draws (ifGenerateOutline node)
  | .node _ _ _ _ children => by
    rw [ifGenerateOutline]
    exact draws_ifBranchesOutline children fun _ hc => hc

theorem draws_caseGenerateOutline : (node : Cst) → node.Draws (caseGenerateOutline node)
  | .node _ _ _ _ children => by
    rw [caseGenerateOutline]
    exact draws_caseItemsOutline children fun _ hc => hc

theorem draws_generateBlockOutline : (node : Cst) → node.Draws (generateBlockOutline node)
  | .node _ _ _ _ children => by
    rw [generateBlockOutline]
    exact draws_generateItemsOutline children fun _ hc => hc

theorem draws_generateBlocksOutline {node : Cst}
    : (children : List Cst) → children ⊆ node.children → node.Draws (generateBlocksOutline children)
  | [], _ => by
    rw [generateBlocksOutline]
    exact .nil
  | child :: rest, h => by
    have hchild : Child node child := h List.mem_cons_self
    rw [generateBlocksOutline]
    refine .append (.ofChild ?_ hchild)
      (draws_generateBlocksOutline rest fun _ hc => h (List.mem_cons_of_mem _ hc))
    split
    . apply draws_generateBlockOutline
    . exact .nil

theorem draws_generateConditionsOutline {node : Cst}
    : (children : List Cst) → children ⊆ node.children →
        node.Draws (generateConditionsOutline children)
  | [], _ => by
    rw [generateConditionsOutline]
    exact .nil
  | child :: rest, h => by
    have hchild : Child node child := h List.mem_cons_self
    rw [generateConditionsOutline]
    refine .append (.ofChild ?_ hchild) (draws_generateConditionsOutline rest fun _ hc =>
      h (List.mem_cons_of_mem _ hc))
    split
    . apply draws_ifGenerateOutline
    . apply draws_caseGenerateOutline
    . exact .nil

theorem draws_ifBranchesOutline {node : Cst}
    : (children : List Cst) → children ⊆ node.children → node.Draws (ifBranchesOutline children)
  | [], _ => by
    rw [ifBranchesOutline]
    exact .nil
  | child :: rest, h => by
    have hchild : Child node child := h List.mem_cons_self
    rw [ifBranchesOutline]
    refine .append (.ofChild ?_ hchild)
      (draws_ifBranchesOutline rest fun _ hc => h (List.mem_cons_of_mem _ hc))
    split
    . next hkind => exact draws_node (by rw [hkind]; rfl) _ (draws_generateBlockOutline child)
    . exact .nil

theorem draws_caseItemsOutline {node : Cst}
    : (children : List Cst) → children ⊆ node.children → node.Draws (caseItemsOutline children)
  | [], _ => by
    rw [caseItemsOutline]
    exact .nil
  | .node kind fields text pos itemChildren :: rest, h => by
    have hchild : Child node (.node kind fields text pos itemChildren) := h List.mem_cons_self
    rw [caseItemsOutline]
    refine .append (.ofChild ?_ hchild)
      (draws_caseItemsOutline rest fun _ hc => h (List.mem_cons_of_mem _ hc))
    split
    . next hkind =>
      have hgives : (Cst.node kind fields text pos itemChildren).kind.gives
          (.generateBlock .case : NodeKind Text) = true := by
        rw [show (Cst.node kind fields text pos itemChildren).kind = .caseGenerateItem from hkind]
        rfl
      exact draws_node hgives _ (draws_generateBlocksOutline itemChildren fun _ hc => hc)
    . exact .nil

theorem draws_generateItemsOutline {node : Cst}
    : (children : List Cst) → children ⊆ node.children → node.Draws (generateItemsOutline children)
  | [], _ => by
    rw [generateItemsOutline]
    exact .nil
  | child :: rest, h => by
    have hchild : Child node child := h List.mem_cons_self
    rw [generateItemsOutline]
    refine .append (.ofChild ?_ hchild)
      (draws_generateItemsOutline rest fun _ hc => h (List.mem_cons_of_mem _ hc))
    split
    . next hkind => exact draws_generateForOutline child hkind
    . apply draws_generateIfOutline
    . next hkind => exact draws_generateRegionOutline child hkind
    . apply draws_instanceOutline
    . apply draws_instanceOutline
    . apply draws_instanceOutline
    . apply draws_instanceOutline
    . next hkind => exact draws_signalOutline (.inl hkind)
    . next hkind => exact draws_signalOutline (.inr hkind)
    . next hkind => exact draws_alwaysOutline hkind
    . next hkind => exact draws_assignOutline hkind
    . next hkind => exact draws_assertionOutline hkind
    . next hkind => exact draws_covergroupOutline hkind
    . next hkind => exact draws_namedOutline fun _ => by rw [hkind]; rfl
    . next hkind => exact draws_namedOutline fun _ => by rw [hkind]; rfl
    . next hkind => exact draws_dpiOutline hkind
    . next hkind => exact draws_bindOutline hkind
    . exact .nil

end

theorem draws_classPropertyOutline (node : Cst) : node.Draws (classPropertyOutline node) := by
  apply draws_flatMap
  intro child _
  split
  . next h =>
    refine .append (.flatMap fun name _ => ?_) (draws_factoryRegistrationOutline (.inr h))
    exact draws_leaf (by rw [h]; rfl) _
  . exact .nil

theorem draws_classMethodOutline {node : Cst} (h : node.kind = .classMethod)
    : node.Draws (classMethodOutline node) := by
  unfold classMethodOutline
  dsimp only
  split
  . exact draws_node (by rw [h]; rfl) _ (draws_methodCallsOutline node)
  . exact .nil

mutual

theorem draws_classOutline : (node : Cst) → node.kind = .classDeclaration →
    node.Draws (classOutline node).toList
  | .node kind fields text pos children, h => by
    rw [classOutline]
    split
    . exact .nil
    . rw [Option.toList_some]
      exact draws_node (by rw [h]; rfl) _ (draws_classBodyOutline children fun _ hc => hc)

theorem draws_classBodyOutline {node : Cst}
    : (children : List Cst) → children ⊆ node.children → node.Draws (classBodyOutline children)
  | [], _ => by
    rw [classBodyOutline]
    exact .nil
  | child :: rest, h => by
    have hchild : Child node child := h List.mem_cons_self
    rw [classBodyOutline]
    refine .append (.ofChild ?_ hchild)
      (draws_classBodyOutline rest fun _ hc => h (List.mem_cons_of_mem _ hc))
    split
    . apply draws_classItemOutline
    . exact .nil

theorem draws_classItemOutline : (node : Cst) → node.Draws (classItemOutline node)
  | .node _ _ _ _ children => by
    rw [classItemOutline]
    exact draws_classItemsOutline children fun _ hc => hc

theorem draws_classItemsOutline {node : Cst}
    : (children : List Cst) → children ⊆ node.children → node.Draws (classItemsOutline children)
  | [], _ => by
    rw [classItemsOutline]
    exact .nil
  | child :: rest, h => by
    have hchild : Child node child := h List.mem_cons_self
    rw [classItemsOutline]
    refine .append (.ofChild ?_ hchild)
      (draws_classItemsOutline rest fun _ hc => h (List.mem_cons_of_mem _ hc))
    split
    . apply draws_classPropertyOutline
    . next hkind => exact draws_classMethodOutline hkind
    . next hkind => exact draws_classOutline child hkind
    . exact .nil

end

theorem draws_packageOutline {node : Cst} (h : node.kind = .packageDeclaration)
    : node.Draws (packageOutline node).toList := by
  have himport : ∀ child : Cst, child.Draws (packageImportOutline child) := by
    intro child
    apply draws_flatMap
    intro item _
    split
    . exact draws_leaf rfl _
    . exact .nil
  have hexport : ∀ child : Cst, child.Draws (packageExportOutline child) := by
    intro child
    apply draws_flatMap
    intro item _
    split
    . split
      . exact draws_leaf rfl _
      . exact .nil
    . split
      . exact draws_leaf rfl _
      . exact .nil
  have hitem : ∀ child : Cst, child.Draws (packageItemOutline child) := by
    intro child
    apply draws_flatMap
    intro item _
    split
    . apply himport
    . apply hexport
    . exact .nil
  unfold packageOutline
  dsimp only
  split
  . exact .nil
  . rw [Option.toList_some]
    refine draws_node (by rw [h]; rfl) _ (draws_flatMap ?_)
    intro child _
    split
    . apply hitem
    . exact .nil

theorem draws_interfaceOutline {node : Cst} (h : node.kind = .interfaceDeclaration)
    : node.Draws (interfaceOutline node).toList := by
  have hmodport : ∀ child : Cst, child.Draws (modportOutline child) := by
    intro child
    apply draws_flatMap
    intro item _
    split
    . next hkind =>
      split
      . exact draws_leaf (by rw [hkind]; rfl) _
      . exact .nil
    . exact .nil
  have hclocking : ∀ child : Cst, child.kind = .clockingDeclaration →
      child.Draws (clockingOutline child) := by
    intro child hkind
    unfold clockingOutline
    dsimp only
    split
    . exact draws_leaf (by rw [hkind]; rfl) _
    . exact .nil
  have hitem : ∀ child : Cst, child.Draws (interfaceItemOutline child) := by
    intro child
    apply draws_flatMap
    intro item _
    split
    . apply hmodport
    . next hkind => exact hclocking item hkind
    . exact .nil
  unfold interfaceOutline
  dsimp only
  split
  . exact .nil
  . rw [Option.toList_some]
    refine draws_node (by rw [h]; rfl) _ (draws_flatMap ?_)
    intro child _
    unfold interfaceChildOutline
    split
    . apply hitem
    . apply hmodport
    . next hkind => exact hclocking child hkind
    . exact .nil

end Constructs

section Modules

theorem draws_functionOutline {node : Cst}
    (h : node.kind = .functionDeclaration ∨ node.kind = .taskDeclaration)
    : node.Draws (functionOutline node) := by
  unfold functionOutline
  dsimp only
  split
  . refine draws_node ?_ _ (draws_methodCallsOutline node)
    rcases h with h | h <;> rw [h] <;> rfl
  . exact .nil

theorem draws_declarationOutline {node : Cst}
    (h : node.kind = .netDeclaration ∨ node.kind = .dataDeclaration)
    : node.Draws (declarationOutline node) := by
  rw [declarationOutline]
  refine .append ?_ (draws_factoryRegistrationOutline h)
  split
  . apply draws_tlmPortOutline
  . exact draws_signalOutline h

theorem draws_moduleBodyChildOutline (child : Cst)
    : child.Draws (moduleBodyChildOutline child) := by
  unfold moduleBodyChildOutline
  split
  . next hkind => exact draws_declarationOutline (.inl hkind)
  . next hkind => exact draws_declarationOutline (.inr hkind)
  . next hkind => exact .append (draws_alwaysOutline hkind) (draws_methodCallsOutline child)
  . apply draws_methodCallsOutline
  . apply draws_methodCallsOutline
  . apply draws_instanceOutline
  . apply draws_instanceOutline
  . next hkind => exact draws_assignOutline hkind
  . next hkind => exact draws_generateForOutline child hkind
  . apply draws_generateIfOutline
  . next hkind => exact draws_generateRegionOutline child hkind
  . next hkind => exact draws_assertionOutline hkind
  . next hkind => exact draws_covergroupOutline hkind
  . next hkind => exact draws_namedOutline fun _ => by rw [hkind]; rfl
  . next hkind => exact draws_namedOutline fun _ => by rw [hkind]; rfl
  . next hkind => exact draws_dpiOutline hkind
  . next hkind => exact draws_bindOutline hkind
  . next hkind => exact draws_namedOutline fun _ => by rw [hkind]; rfl
  . next hkind => exact draws_classOutline child hkind
  . next hkind => exact draws_interfaceOutline hkind
  . exact .nil

theorem draws_headerOutline (node : Cst) : node.Draws (headerOutline node) := by
  apply draws_flatMap
  intro hchild _
  split
  . apply draws_portsOutline
  . exact .nil

theorem draws_moduleChildOutline (child : Cst) : child.Draws (moduleChildOutline child) := by
  unfold moduleChildOutline
  split
  . apply draws_headerOutline
  . apply draws_headerOutline
  . apply draws_headerOutline
  . next hkind => exact draws_declarationOutline (.inl hkind)
  . next hkind => exact draws_declarationOutline (.inr hkind)
  . next hkind => exact .append (draws_alwaysOutline hkind) (draws_methodCallsOutline child)
  . apply draws_methodCallsOutline
  . apply draws_methodCallsOutline
  . apply draws_instanceOutline
  . apply draws_instanceOutline
  . apply draws_instanceOutline
  . apply draws_instanceOutline
  . next hkind => exact draws_assignOutline hkind
  . next hkind => exact draws_functionOutline (.inl hkind)
  . next hkind => exact draws_functionOutline (.inr hkind)
  . next hkind => exact draws_generateForOutline child hkind
  . apply draws_generateIfOutline
  . next hkind => exact draws_generateRegionOutline child hkind
  . next hkind => exact draws_assertionOutline hkind
  . next hkind => exact draws_covergroupOutline hkind
  . next hkind => exact draws_namedOutline fun _ => by rw [hkind]; rfl
  . next hkind => exact draws_namedOutline fun _ => by rw [hkind]; rfl
  . next hkind => exact draws_dpiOutline hkind
  . next hkind => exact draws_bindOutline hkind
  . next hkind => exact draws_namedOutline fun _ => by rw [hkind]; rfl
  . exact draws_flatMap fun item _ => draws_moduleBodyChildOutline item
  . next hkind => exact draws_classOutline child hkind
  . next hkind => exact draws_interfaceOutline hkind
  . exact .nil

theorem draws_topItems (child : Cst) : child.Draws ((topItems child).map TopItem.outline) := by
  have hdeclared : ∀ os : List Outline, (os.map TopItem.declared).map TopItem.outline = os := by
    intro os
    rw [List.map_map]
    exact List.map_id os
  have hclass : ∀ os : List Outline, (os.map TopItem.class).map TopItem.outline = os := by
    intro os
    rw [List.map_map]
    exact List.map_id os
  unfold topItems
  split
  . next hkind =>
      exact draws_node (by rw [hkind]; rfl) _
        (draws_flatMap fun item _ => draws_moduleChildOutline item)
  . next hkind =>
    rw [hdeclared]
    exact draws_namedOutline fun _ => by rw [hkind]; rfl
  . next hkind =>
    rw [hdeclared]
    exact draws_bindOutline hkind
  . next hkind =>
    rw [hdeclared]
    exact draws_packageOutline hkind
  . next hkind =>
    rw [hdeclared]
    exact draws_interfaceOutline hkind
  . next hkind =>
    rw [hclass]
    exact draws_classOutline child hkind
  . exact .nil

theorem draws_fileOutline (tree : Cst)
    : tree.Draws ((fileOutline tree).items.map TopItem.outline) := by
  unfold fileOutline
  dsimp only
  rw [List.map_flatMap]
  exact draws_flatMap fun child _ => draws_topItems child

end Modules

end GraphExtractor

/-! ## The origins of the nodes of a file -/

namespace TopItem

open ExtractM

theorem nodesAt_subset (root b : NodeId) (item : TopItem)
    : item.nodesAt root b ⊆ nodesOf (item.outline.place root b) := by
  cases item with
  | declared o => exact fun _ h => h
  | «class» o => exact fun _ h => h
  | module name pos items =>
    intro n hn
    rw [nodesAt, List.mem_append] at hn
    rcases hn with hn | hn
    . exact List.mem_cons_of_mem _ hn
    . split at hn
      . contradiction
      . exact List.mem_cons.mpr (.inl (List.mem_singleton.mp hn))

theorem exists_of_mem_edgesAt {root b : NodeId} {item : TopItem} (hregular : item.Regular)
    {e : Edge} (he : e ∈ item.edgesAt root b)
    : ∃ x ∈ item.outline.place root b, e = ⟨x.parent, x.id, x.label.edge⟩ := by
  have hplaced : ∀ {xs : List (Rose.Placement Declared)}, e ∈ edgesOf xs →
      ∃ x ∈ xs, e = ⟨x.parent, x.id, x.label.edge⟩ := by
    intro xs hxs
    obtain ⟨x, hx, rfl⟩ := List.mem_map.mp hxs
    exact ⟨x, hx, rfl⟩
  have hroot : ∀ {o : Outline}, o.label.edge = .contains → e = ⟨root, b, .contains⟩ →
      ∃ x ∈ o.place root b, e = ⟨x.parent, x.id, x.label.edge⟩ := by
    rintro ⟨label, children⟩ hedge rfl
    exact ⟨_, List.mem_cons_self, congrArg (Edge.mk root b) hedge.symm⟩
  cases item with
  | declared o => exact hplaced he
  | «class» o =>
    rw [edgesAt, List.mem_append, List.mem_singleton] at he
    have hhangs :=
      hregular.hangsBy o.label (by rw [outline, Rose.labels_eq]; exact List.mem_cons_self)
    exact he.elim hplaced (hroot (NodeKind.edge_of_isClass hhangs (hregular.classItem o rfl).1))
  | module name pos items =>
    rw [edgesAt, List.mem_append] at he
    rcases he with he | he
    . obtain ⟨x, hx, heq⟩ := hplaced he
      exact ⟨x, List.mem_cons_of_mem _ hx, heq⟩
    . split at he
      . contradiction
      . exact hroot rfl (List.mem_singleton.mp he)

theorem nodesAllAt_subset (root b : NodeId) (items : List TopItem)
    : nodesAllAt root b items ⊆ nodesOf (Rose.placeAll root b (items.map outline)) := by
  induction items generalizing b with
  | nil => exact fun _ h => h
  | cons item items ih =>
    intro n hn
    rw [List.map_cons, Rose.placeAll_cons, nodesOf_append, List.mem_append]
    rw [nodesAllAt, List.mem_append] at hn
    exact hn.imp (fun hn => nodesAt_subset root b item hn) fun hn => ih _ hn

theorem exists_of_mem_edgesAllAt {root b : NodeId} {items : List TopItem}
    (hregular : ∀ item ∈ items, item.Regular) {e : Edge} (he : e ∈ edgesAllAt root b items)
    : ∃ x ∈ Rose.placeAll root b (items.map outline), e = ⟨x.parent, x.id, x.label.edge⟩ := by
  induction items generalizing b with
  | nil => contradiction
  | cons item items ih =>
    rw [edgesAllAt, List.mem_append] at he
    rw [List.map_cons, Rose.placeAll_cons]
    rcases he with he | he
    . obtain ⟨x, hx, heq⟩ := exists_of_mem_edgesAt (hregular item List.mem_cons_self) he
      exact ⟨x, List.mem_append_left _ hx, heq⟩
    . obtain ⟨x, hx, heq⟩ := ih (fun item hitem => hregular item (List.mem_cons_of_mem _ hitem)) he
      exact ⟨x, List.mem_append_right _ hx, heq⟩

end TopItem

namespace GraphExtractor

open Cst

structure IsOrigin (tree : Cst) (rootId : NodeId)
    (result : (List GraphNode × List Edge) × GraphExtractor) (origin : NodeId → Cst)
    : Prop where
  root : origin rootId = tree
  nodes : ∀ node ∈ result.1.1,
    ∃ kind : NodeKind Text, node.kind.resolve result.2.symbols = some kind
    ∧ tree.Inside (origin node.id)
      ∧ (node.id = rootId ∧ kind = .sourceFile ∨ (origin node.id).kind.gives kind = true)
    ∧ node.line = (origin node.id).pos.row + 1 ∧ node.col = (origin node.id).pos.col
  edges : ∀ e ∈ result.1.2, (origin e.source).Inside (origin e.target)

theorem Extracts.exists_origin {ex : GraphExtractor} {tree : Cst}
    {result : (List GraphNode × List Edge) × GraphExtractor}
    (h : Extracts ex (fileOutline tree) result)
    : ∃ origin, IsOrigin tree ex.nextId result origin := by
  obtain ⟨origin, hsame, hleads⟩ :=
    Rose.exists_leads_placeAll (Nat.lt_succ_self ex.nextId) (fun _ => tree) _
    (draws_fileOutline tree)
  have hroot : origin ex.nextId = tree := hsame _ (Nat.lt_succ_self _)
  refine ⟨origin, hroot, ?_, ?_⟩
  . intro node hnode
    have hnamed := List.mem_map_of_mem (f := (·.named result.2.symbols)) hnode
    rw [h.nodes] at hnamed
    obtain ⟨n, hn, heq⟩ := List.mem_map.mp hnamed
    obtain ⟨kind, hkind, hn'⟩ := Option.map_eq_some_iff.mp heq.symm
    have horigin : tree.Inside (origin n.id)
        ∧ (n.id = ex.nextId ∧ n.kind = .sourceFile ∨ (origin n.id).kind.gives n.kind = true)
        ∧ n.line = (origin n.id).pos.row + 1 ∧ n.col = (origin n.id).pos.col := by
      rcases List.mem_cons.mp hn with rfl | hn
      . change tree.Inside (origin ex.nextId) ∧ _ ∧ _ = (origin ex.nextId).pos.row + 1
          ∧ _ = (origin ex.nextId).pos.col
        rw [hroot]
        exact ⟨.refl, .inl ⟨rfl, rfl⟩, rfl, rfl⟩
      . obtain ⟨x, hx, rfl⟩ := List.mem_map.mp (TopItem.nodesAllAt_subset _ _ _ hn)
        obtain ⟨hpos, hgives⟩ := (hleads x hx).2
        have hinside := hleads.inside_root hx
        rw [hroot] at hinside
        refine ⟨hinside, .inr hgives, ?_, ?_⟩
        . rw [Declared.namedNode, hpos]
        . rw [Declared.namedNode, hpos]
    subst hn'
    exact ⟨kind, hkind, horigin⟩
  . intro e he
    rw [h.edges] at he
    obtain ⟨x, hx, rfl⟩ := TopItem.exists_of_mem_edgesAllAt (regular_fileOutline tree) he
    exact (hleads x hx).1

/--
What is extracted from a file leads back to its syntax tree: each node but that of the file comes
from a syntax node in the tree whose kind declares such nodes and starts where this one does, and
along each edge the origins are nested.
-/
theorem exists_origin_extract (ex : GraphExtractor) (tree : Cst) (fileId : Nat)
    : ∃ origin, IsOrigin tree ex.nextId (ex.extract tree fileId) origin :=
  (extract_extracts ex tree fileId).exists_origin

/-! ## Start positions -/

end GraphExtractor

def Position.NotBehind (p q : Position) : Prop := p.row < q.row ∨ p.row = q.row ∧ p.col ≤ q.col

theorem Position.NotBehind.refl (p : Position) : p.NotBehind p := .inr ⟨rfl, Nat.le_refl _⟩

theorem Position.NotBehind.trans {p q r : Position} (h : p.NotBehind q) (h' : q.NotBehind r)
    : p.NotBehind r := by
  unfold NotBehind at *
  omega

namespace Cst

-- No node starts behind what stands in it
def Ordered (tree : Cst) : Prop :=
  ∀ node, tree.Inside node → ∀ child ∈ node.children, node.pos.NotBehind child.pos

theorem Ordered.notBehind {tree node inner : Cst} (h : tree.Ordered) (hnode : tree.Inside node)
    (hinner : node.Inside inner)
    : node.pos.NotBehind inner.pos := by
  induction hinner with
  | refl => exact .refl _
  | tail hpath hchild ih => exact ih.trans (h _ (hnode.trans hpath) _ hchild)

theorem ordered_node (kind : SyntaxKind) (fields : List FieldName) (text : Text) (pos : Position)
    (children : List Cst)
    : (node kind fields text pos children).Ordered
        ↔ ∀ child ∈ children, pos.NotBehind child.pos ∧ child.Ordered := by
  constructor
  . intro h child hchild
    exact ⟨h _ .refl child hchild, fun node hnode => h node (.head hchild hnode)⟩
  . intro h node hnode
    rcases Relation.ReflTransGen.cases_head hnode with rfl | ⟨child, hchild, hinner⟩
    . exact fun child hchild => (h child hchild).1
    . exact (h child hchild).2 node hinner

end Cst

namespace GraphExtractor

/-- In what is extracted from a file no node starts behind a node that it has an edge to. -/
theorem extract_starts_in_order (ex : GraphExtractor) {tree : Cst} (hordered : tree.Ordered)
    (fileId : Nat)
    : let result := ex.extract tree fileId
      ∀ e ∈ result.1.2, ∀ parent ∈ result.1.1, ∀ child ∈ result.1.1, parent.id = e.source →
        child.id = e.target →
        parent.line < child.line ∨ parent.line = child.line ∧ parent.col ≤ child.col := by
  intro result e he parent hparent child hchild hsource htarget
  obtain ⟨origin, _, hnodes, hedges⟩ := (extract_extracts ex tree fileId).exists_origin
  obtain ⟨_, _, hinside, _, hparentLine, hparentCol⟩ := hnodes parent hparent
  obtain ⟨_, _, _, _, hchildLine, hchildCol⟩ := hnodes child hchild
  have hedge := hedges e he
  rw [← hsource, ← htarget] at hedge
  have hstart := hordered.notBehind hinside hedge
  rw [hparentLine, hparentCol, hchildLine, hchildCol]
  unfold Position.NotBehind at hstart
  omega

def assignText : Text := "module m;\n  assign a = b;\nendmodule".toList

def moduleWithAssign : Cst :=
  .node .other [] assignText ⟨0, 0⟩ [
    .node .moduleDeclaration [] assignText ⟨0, 0⟩ [
      .node .moduleAnsiHeader [] "module m;".toList ⟨0, 0⟩
      [.node .simpleIdentifier [.name] "m".toList ⟨0, 7⟩ []],
      .node .continuousAssign [] "assign a = b;".toList ⟨1, 2⟩ []]]

theorem extract_starts_in_order_moduleWithAssign
    : (GraphExtractor.new.extract moduleWithAssign 0).1.2.length = 2
      ∧ ∀ e ∈ (GraphExtractor.new.extract moduleWithAssign 0).1.2,
          ∀ parent ∈ (GraphExtractor.new.extract moduleWithAssign 0).1.1,
          ∀ child ∈ (GraphExtractor.new.extract moduleWithAssign 0).1.1,
          parent.id = e.source → child.id = e.target →
          parent.line < child.line ∨ parent.line = child.line ∧ parent.col ≤ child.col := by
  refine ⟨by decide, extract_starts_in_order GraphExtractor.new ?_ 0⟩
  simp [moduleWithAssign, Cst.ordered_node, Cst.pos, Position.NotBehind]

end GraphExtractor
end HdlGraph
