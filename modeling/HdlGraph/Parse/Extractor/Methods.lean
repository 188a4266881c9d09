import HdlGraph.Parse.Extractor.Added
import HdlGraph.Parse.Extractor.Calls
import HdlGraph.Parse.Extractor.Class
import HdlGraph.Parse.Extractor.Module
import HdlGraph.Parse.Extractor.Numbering

/-!
This module contains what a function or a task gives as a method of a class and as an item of a
module. A class looks for the name in the declaration alone, a module also below it.
-/

namespace HdlGraph
namespace GraphExtractor

open ExtractM

def nameBelow (d : Cst) : Text :=
  ((d.children.findSome? functionBodyName).or (d.children.findSome? taskBodyName)).getD []

/--
A `class_method` around a function or a task: the qualifiers, which are keywords, and the
declaration.
-/
structure IsMethodOf (d method : Cst) : Prop where
  declaration : d.kind = .functionDeclaration ∨ d.kind = .taskDeclaration
  kind : method.kind = .classMethod
  children : ∃ qualifiers, method.children = qualifiers ++ [d]
    ∧ ∀ qualifier ∈ qualifiers, (qualifier.kind = .methodQualifier ∨ qualifier.kind = .other)
      ∧ ∀ keyword ∈ qualifier.children, keyword.kind = .other ∧ keyword.children = []

/--
Both runs add nothing, or both add one node, of the same name, and the same nodes for calls, all of
them right below it.
-/
def FoundAlike (d method : Cst) (classId moduleId : NodeId) (s : ExtractState) : Prop :=
  let asMethod := extractClassMethod method classId
  let asFunction := extractModuleChild d moduleId
  let id := s.extractor.nextId
  addedNodes asMethod s = [] ∧ addedNodes asFunction s = []
    ∨
  ∃ (name : Text) (isVirtual isTask : Bool) (calls : List NamedNode) (callEdges : List Edge),
    addedNodes asMethod s
      = Declared.namedNode id ⟨.method name isVirtual, .defines, method.pos⟩ :: calls
      ∧ addedEdges asMethod s = ⟨classId, id, .defines⟩ :: callEdges
      ∧ addedNodes asFunction s
        = Declared.namedNode id ⟨.function name isTask, .contains, d.pos⟩ :: calls
      ∧ addedEdges asFunction s = ⟨moduleId, id, .contains⟩ :: callEdges
      ∧ callEdges.map Edge.target = calls.map NamedNode.id
      ∧ ∀ e ∈ callEdges, e.source = id

theorem functionName_eq (d : Cst)
    : functionName d = ((d.childByFieldName .name).map Cst.text).getD (nameBelow d) := by
  unfold functionName nameBelow
  cases d.childByFieldName .name <;> simp

theorem foldl_classMethodChild_qualifiers {qualifiers : List Cst}
    (h : ∀ qualifier ∈ qualifiers, qualifier.kind = .methodQualifier ∨ qualifier.kind = .other)
    (found : Bool × Text)
    : (qualifiers.foldl classMethodChild found).2 = found.2 := by
  induction qualifiers generalizing found with
  | nil => rfl
  | cons qualifier qualifiers ih =>
    rw [List.forall_mem_cons] at h
    rw [List.foldl_cons, ih h.2]
    cases h.1 with
    | inl hkind => simp only [classMethodChild, hkind]
    | inr hkind => simp only [classMethodChild, hkind]

section MethodOf

variable {d method : Cst}

theorem IsMethodOf.name_eq (h : IsMethodOf d method)
    : (classMethodOf method).2 = ((d.childByFieldName .name).map Cst.text).getD [] := by
  obtain ⟨qualifiers, hchildren, hqualifiers⟩ := h.children
  have hname :=
    foldl_classMethodChild_qualifiers (fun qualifier hq => (hqualifiers qualifier hq).1) (false, [])
  rw [classMethodOf, hchildren, List.foldl_append, List.foldl_cons, List.foldl_nil]
  cases h.declaration with
  | inl hkind => simp only [classMethodChild, hkind, hname]
  | inr hkind => simp only [classMethodChild, hkind, hname]

theorem IsMethodOf.methodCallsOutline_eq (h : IsMethodOf d method)
    : methodCallsOutline method = methodCallsOutline d := by
  obtain ⟨qualifiers, hchildren, hqualifiers⟩ := h.children
  have hkeyword : ∀ keywords : List Cst,
      (∀ keyword ∈ keywords, keyword.kind = .other ∧ keyword.children = [])
      → Cst.reachedAll isCall (fun _ => false) keywords = [] := by
    intro keywords hkeywords
    induction keywords with
    | nil => simp
    | cons keyword keywords ih =>
      rw [List.forall_mem_cons] at hkeywords
      simp [hkeywords.1.1, isCall, Cst.reached_eq, hkeywords.1.2, ih hkeywords.2]
  have hqualifier : Cst.reachedAll isCall (fun _ => false) qualifiers = [] := by
    clear hchildren
    induction qualifiers with
    | nil => simp
    | cons qualifier qualifiers ih =>
      rw [List.forall_mem_cons] at hqualifiers
      have hcall : isCall qualifier.kind = false := by cases hqualifiers.1.1 <;> simp [isCall, *]
      simp [hcall, Cst.reached_eq, hkeyword _ hqualifiers.1.2, ih hqualifiers.2]
  have hcall : isCall d.kind = false := by cases h.declaration <;> simp [isCall, *]
  rw [GraphExtractor.methodCallsOutline_eq, Cst.reached_eq, hchildren, Cst.reachedAll_append,
    hqualifier, Cst.reachedAll_cons, hcall, GraphExtractor.methodCallsOutline_eq]
  simp

theorem IsMethodOf.extractModuleChild_eq (h : IsMethodOf d method) (moduleId : NodeId)
    : extractModuleChild d moduleId = emitAll moduleId (functionOutline d) := by
  rw [GraphExtractor.extractModuleChild_eq]
  cases h.declaration with
  | inl hkind => simp only [moduleChildOutline, hkind]
  | inr hkind => simp only [moduleChildOutline, hkind]

end MethodOf

theorem source_of_leaves {os : List Outline} (h : ∀ o ∈ os, ∃ d : Declared, o = .node d [])
    (p b : NodeId)
    : ∀ e ∈ edgesOf (Rose.placeAll p b os), e.source = p := by
  induction os generalizing b with
  | nil => simp [edgesOf]
  | cons o os ih =>
    rw [List.forall_mem_cons] at h
    obtain ⟨⟨d, rfl⟩, h⟩ := h
    rw [Rose.placeAll_cons, edgesOf_append]
    simp only [Rose.place, Rose.placeAll_nil, List.forall_mem_append]
    refine ⟨?_, ih h _⟩
    simp [edgesOf]

theorem foundAlike_of_name_eq {d method : Cst} (h : IsMethodOf d method)
    (hname : (classMethodOf method).2 = functionName d) (classId moduleId : NodeId)
    (s : ExtractState)
    : FoundAlike d method classId moduleId s := by
  unfold FoundAlike
  simp only [h.extractModuleChild_eq, extractClassMethod_eq, addedNodes_emitAll, addedEdges_emitAll,
    classMethodOutline, functionOutline, h.methodCallsOutline_eq, hname]
  by_cases hnil : functionName d = []
  . left
    simp [hnil, nodesOf]
  . right
    simp only [if_pos hnil, Rose.placeAll_cons, Rose.placeAll_nil, Rose.place, List.append_nil]
    let calls := Rose.placeAll s.extractor.nextId (s.extractor.nextId + 1) (methodCallsOutline d)
    refine ⟨_, _, _, nodesOf calls, edgesOf calls, rfl, rfl, rfl, rfl, ?_, ?_⟩
    . rw [map_target_edgesOf, map_id_nodesOf]
    . exact source_of_leaves (methodCallsOutline_leaf d) _ _

theorem not_foundAlike_of_nameless {d method : Cst} (h : IsMethodOf d method)
    (hmethod : (classMethodOf method).2 = []) (hfunction : functionName d ≠ [])
    (classId moduleId : NodeId) (s : ExtractState)
    : ¬FoundAlike d method classId moduleId s := by
  have hnone : addedNodes (extractClassMethod method classId) s = [] := by
    rw [extractClassMethod_eq, addedNodes_emitAll, classMethodOutline]
    simp [hmethod, nodesOf]
  have hsome : addedNodes (extractModuleChild d moduleId) s ≠ [] := by
    rw [h.extractModuleChild_eq, addedNodes_emitAll, functionOutline]
    simp [if_pos hfunction, nodesOf, Rose.place]
  unfold FoundAlike
  rintro (⟨_, hnil⟩ | ⟨_, _, _, _, _, hcons, _⟩)
  . exact hsome hnil
  . rw [hnone] at hcons
    cases hcons

theorem foundAlike_iff {d method : Cst} (h : IsMethodOf d method) (classId moduleId : NodeId)
    (s : ExtractState)
    : FoundAlike d method classId moduleId s ↔ d.childByFieldName .name ≠ none
        ∨ nameBelow d = [] := by
  cases hown : d.childByFieldName .name with
  | some own =>
    have hname : (classMethodOf method).2 = functionName d := by
      simp [h.name_eq, functionName_eq, hown]
    simp [foundAlike_of_name_eq h hname classId moduleId s]
  | none =>
    have hmethod : (classMethodOf method).2 = [] := by simp [h.name_eq, hown]
    have hfunction : functionName d = nameBelow d := by simp [functionName_eq, hown]
    by_cases hnil : nameBelow d = []
    . have := foundAlike_of_name_eq h (by rw [hmethod, hfunction, hnil]) classId moduleId s
      simp [hnil, this]
    . have :=
        not_foundAlike_of_nameless h hmethod (by rw [hfunction]; exact hnil) classId moduleId s
      simp [hnil, this]

section Examples

-- `task run; cfg::type_id::create("c"); endtask`: the name is on the declaration or on its body
def runTask (field bodyField : List FieldName) : Cst :=
  let cfg : TypeName := plainType "cfg".toList (by decide)
  .node .taskDeclaration [] [] ⟨0, 0⟩ [
    UvmCall.token .other [] "task".toList,
    .node .taskBodyDeclaration field "run".toList ⟨0, 5⟩ [
      UvmCall.token .simpleIdentifier bodyField "run".toList,
      UvmCall.tfCallTree (.create cfg ["\"c\"".toList])]]

def virtualMethod (d : Cst) : Cst :=
  .node .classMethod [] [] ⟨0, 0⟩ [
    .node .methodQualifier [] "virtual".toList ⟨0, 0⟩ [UvmCall.token .other [] "virtual".toList],
    d]

theorem isMethodOf_virtualMethod {d : Cst}
    (h : d.kind = .functionDeclaration ∨ d.kind = .taskDeclaration)
    : IsMethodOf d (virtualMethod d) where
  declaration := h
  kind := rfl
  children := by
    refine ⟨[.node .methodQualifier [] "virtual".toList ⟨0, 0⟩
      [UvmCall.token .other [] "virtual".toList]], rfl, ?_⟩
    intro qualifier hqualifier
    rw [List.mem_singleton.mp hqualifier]
    refine ⟨Or.inl rfl, ?_⟩
    intro keyword hkeyword
    rw [List.mem_singleton.mp hkeyword]
    exact ⟨rfl, rfl⟩

theorem foundAlike_runTask
    : FoundAlike (runTask [.name] []) (virtualMethod (runTask [.name] [])) 1 2 ⟨.new, [], []⟩ :=
  (foundAlike_iff (isMethodOf_virtualMethod (Or.inr rfl)) 1 2 _).mpr (Or.inl (by decide))

theorem not_foundAlike_runTask
    : ¬FoundAlike (runTask [] [.name]) (virtualMethod (runTask [] [.name])) 1 2 ⟨.new, [], []⟩ :=
  not_foundAlike_of_nameless (isMethodOf_virtualMethod (Or.inr rfl)) (by decide) (by decide) 1 2 _

end Examples

end GraphExtractor
end HdlGraph
