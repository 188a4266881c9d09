import HdlGraph.Frontend.Uvm

/-!
This module contains the search for the class or module that a UVM record is in, and when it finds
the nearest one.
-/

namespace HdlGraph

namespace InMemoryGraph

/-- Everything has at most one parent, with any number of edges from it; in a forest this is so. -/
def OneParent (g : InMemoryGraph) : Prop :=
  ∀ nodeId, ∀ e ∈ g.getIncoming nodeId, ∀ e' ∈ g.getIncoming nodeId,
    e.edgeType.isScope = true → e'.edgeType.isScope = true → e.source = e'.source

def parent? (g : InMemoryGraph) (nodeId : NodeId) : Option NodeId :=
  ((g.getIncoming nodeId).find? fun e => e.edgeType.isScope).map Edge.source

def ancestors (g : InMemoryGraph) : Nat → NodeId → List NodeId
  | 0, _ => []
  | steps + 1, nodeId =>
    match g.parent? nodeId with
    | none => []
    | some parent => parent :: g.ancestors steps parent

theorem oneParent_of_logs {g : InMemoryGraph} {log : List Edge} (h : Logs g log)
    (hlog : ∀ e ∈ log, ∀ e' ∈ log, e.target = e'.target → e.source = e'.source)
    : g.OneParent := by
  intro nodeId e he e' he' _ _
  rw [h.mem_getIncoming] at he he'
  exact hlog e he.1 e' he'.1 (he.2.trans he'.2.symm)

theorem parent?_eq_some {g : InMemoryGraph} (h : g.OneParent) {nodeId : NodeId} {e : Edge}
    (he : e ∈ g.getIncoming nodeId) (hscope : e.edgeType.isScope = true)
    : g.parent? nodeId = some e.source := by
  have hsome : ((g.getIncoming nodeId).find? fun e => e.edgeType.isScope).isSome = true :=
    List.find?_isSome.mpr ⟨e, he, hscope⟩
  obtain ⟨e', hfind⟩ := Option.isSome_iff_exists.mp hsome
  have hscope' : e'.edgeType.isScope = true := by simpa using List.find?_some hfind
  rw [parent?, hfind, Option.map_some,
    h nodeId e' (List.mem_of_find?_eq_some hfind) e he hscope' hscope]

end InMemoryGraph

namespace UvmTool

variable (g : InMemoryGraph) (symbols : SymbolTable)

def ownerName? (nodeId : NodeId) : Option Text :=
  match (g.getNode nodeId).map GraphNode.kind with
  | some (.class name _) => some ("class ".toList ++ nameOr symbols name)
  | some (.module name) => some ("module ".toList ++ nameOr symbols name)
  | _ => none

/-- The first class or module among the ten nearest that the node is in. -/
def enclosingName (nodeId : NodeId) : Text :=
  ((g.ancestors 10 nodeId).findSome? (ownerName? g symbols)).getD "unknown".toList

/-! ## The rounds of the search -/

-- The loop over the edges of one round: the name that is returned or, behind the loop, `current`
def scanIncoming (current : NodeId) : List Edge → Text ⊕ NodeId
  | [] => .inr current
  | edge :: incoming =>
    if edge.edgeType = .contains then
      match g.getNode edge.source with
      | some parent =>
        match parent.kind with
        | .class name _ => .inl ("class ".toList ++ nameOr symbols name)
        | .module name => .inl ("module ".toList ++ nameOr symbols name)
        | _ => scanIncoming edge.source incoming
      | none => scanIncoming current incoming
    else
      scanIncoming current incoming

-- Behind the loop over the edges stands a `break`
def findParentRounds : Nat → NodeId → Text
  | 0, _ => "unknown".toList
  | _ + 1, current =>
    match scanIncoming g symbols current (g.getIncoming current) with
    | .inl name => name
    | .inr _ => "unknown".toList

variable {g symbols} {nodeId : NodeId}

theorem scanIncoming_eq (current : NodeId) (incoming : List Edge)
    : (scanIncoming g symbols current incoming).getLeft?
        = incoming.findSome? fun edge =>
          if edge.edgeType = .contains then ownerName? g symbols edge.source else none := by
  induction incoming generalizing current with
  | nil => rfl
  | cons edge incoming ih =>
    rw [scanIncoming, List.findSome?_cons]
    split
    . cases hnode : g.getNode edge.source with
      | none => simp [ownerName?, hnode, ih]
      | some parent =>
        cases hkind : parent.kind <;> simp [ownerName?, hnode, hkind, ih]
    . exact ih _

theorem findParentName_eq (nodeId : NodeId)
    : findParentName g symbols nodeId
        = ((g.getIncoming nodeId).findSome? fun edge =>
            if edge.edgeType = .contains then ownerName? g symbols edge.source
              else none).getD "unknown".toList :=
  rfl

theorem findParentRounds_succ (rounds : Nat) (current : NodeId)
    : findParentRounds g symbols (rounds + 1) current
        = ((scanIncoming g symbols current (g.getIncoming current)).getLeft?).getD
          "unknown".toList := by
  change (match scanIncoming g symbols current (g.getIncoming current) with
    | .inl name => name
    | .inr _ => "unknown".toList) = _
  cases scanIncoming g symbols current (g.getIncoming current) <;> rfl

theorem findParentRounds_eq (rounds : Nat) (nodeId : NodeId)
    : findParentRounds g symbols (rounds + 1) nodeId = findParentName g symbols nodeId := by
  rw [findParentRounds_succ, scanIncoming_eq, findParentName_eq]

/-! ## When it is right -/

theorem ownerName?_ne_unknown : ownerName? g symbols nodeId ≠ some "unknown".toList := by
  unfold ownerName?
  split <;> simp

theorem findSome?_ownerName?_ne_unknown (ids : List NodeId)
    : ids.findSome? (ownerName? g symbols) ≠ some "unknown".toList := by
  intro h
  obtain ⟨id, _, hid⟩ := List.exists_of_findSome?_eq_some h
  exact ownerName?_ne_unknown hid

theorem enclosingName_eq_unknown_iff
    : enclosingName g symbols nodeId = "unknown".toList
        ↔ ∀ id ∈ g.ancestors 10 nodeId, ownerName? g symbols id = none := by
  have hne : (g.ancestors 10 nodeId).findSome? (ownerName? g symbols) ≠ some "unknown".toList :=
    findSome?_ownerName?_ne_unknown _
  rw [enclosingName, ← List.findSome?_eq_none_iff]
  generalize (g.ancestors 10 nodeId).findSome? (ownerName? g symbols) = found at hne ⊢
  cases found with
  | none => simp
  | some name => simpa using hne

variable (g symbols nodeId) in
/-- A `Contains` edge comes from a class or a module. -/
def DirectlyIn : Prop :=
  ∃ e ∈ g.getIncoming nodeId, e.edgeType = .contains ∧ (ownerName? g symbols e.source).isSome = true

theorem findParentName_of_directlyIn (h : g.OneParent) (hin : DirectlyIn g symbols nodeId)
    : findParentName g symbols nodeId = enclosingName g symbols nodeId := by
  obtain ⟨e, he, hcontains, howner⟩ := hin
  obtain ⟨name, hname⟩ := Option.isSome_iff_exists.mp howner
  have hscope : ∀ edgeType : EdgeType, edgeType = .contains → edgeType.isScope = true := by
    rintro _ rfl
    rfl
  have hparent : g.parent? nodeId = some e.source :=
    InMemoryGraph.parent?_eq_some h he (hscope _ hcontains)
  have henclosing : enclosingName g symbols nodeId = name := by
    rw [enclosingName, InMemoryGraph.ancestors, hparent, List.findSome?_cons, hname,
      Option.getD_some]
  have hfound : ((g.getIncoming nodeId).findSome? fun edge =>
      if edge.edgeType = .contains then ownerName? g symbols edge.source
        else none).isSome = true := by
    rw [List.findSome?_isSome_iff]
    exact ⟨e, he, by rw [if_pos hcontains, hname]; rfl⟩
  obtain ⟨name', hname'⟩ := Option.isSome_iff_exists.mp hfound
  -- Whichever edge it is, it comes from the same parent
  obtain ⟨e', he', howner'⟩ := List.exists_of_findSome?_eq_some hname'
  have hcontains' : e'.edgeType = .contains := by
    by_contra hne
    rw [if_neg hne] at howner'
    contradiction
  rw [if_pos hcontains', h nodeId e' he' e he (hscope _ hcontains') (hscope _ hcontains), hname,
    Option.some.injEq] at howner'
  rw [findParentName_eq, hname', henclosing, Option.getD_some, howner']

theorem findParentName_of_not_directlyIn (h : ¬DirectlyIn g symbols nodeId)
    : findParentName g symbols nodeId = "unknown".toList := by
  rw [findParentName_eq, List.findSome?_eq_none_iff.mpr, Option.getD_none]
  intro e he
  split
  . next hcontains => simpa using fun hsome => h ⟨e, he, hcontains, hsome⟩
  . rfl

/--
The search gives the nearest class or module that the node is in if and only if a `Contains` edge
leads from it to the node, or there is none.
-/
theorem findParentName_eq_enclosingName_iff (h : g.OneParent) (nodeId : NodeId)
    : findParentName g symbols nodeId = enclosingName g symbols nodeId
        ↔ DirectlyIn g symbols nodeId
          ∨ ∀ id ∈ g.ancestors 10 nodeId, ownerName? g symbols id = none := by
  rw [← enclosingName_eq_unknown_iff]
  constructor
  . intro heq
    by_contra hneither
    rw [not_or] at hneither
    rw [findParentName_of_not_directlyIn hneither.1] at heq
    exact hneither.2 heq.symm
  . rintro (hin | hunknown)
    . exact findParentName_of_directlyIn h hin
    . by_cases hin : DirectlyIn g symbols nodeId
      . exact findParentName_of_directlyIn h hin
      . rw [findParentName_of_not_directlyIn hin, hunknown]

def parentSymbols : SymbolTable :=
  ["c", "build_phase", "m", "u"].foldl (fun symbols s => (symbols.intern s.toList).2) .new

def parentEdges : List Edge :=
  [⟨1, 2, .defines⟩, ⟨2, 3, .contains⟩, ⟨4, 5, .contains⟩, ⟨5, 6, .contains⟩]

def parentGraph : InMemoryGraph :=
  (InMemoryGraph.new.addNodes [
    ⟨1, .class ⟨0⟩ none, none, 1, 0, 0⟩,
    ⟨2, .method ⟨1⟩ false, none, 1, 1, 0⟩,
    ⟨3, .configDBSet ⟨3⟩, none, 1, 2, 0⟩,
    ⟨4, .module ⟨2⟩, none, 1, 5, 0⟩,
    ⟨5, .moduleInstance ⟨3⟩ ⟨2⟩, none, 1, 6, 0⟩,
    ⟨6, .portConnection ⟨3⟩ ⟨3⟩, none, 1, 6, 4⟩]).addEdges parentEdges

theorem oneParent_parentGraph : parentGraph.OneParent :=
  InMemoryGraph.oneParent_of_logs ((InMemoryGraph.Logs.new.addNodes _).addEdges parentEdges)
    (by decide)

theorem findParentName_eq_enclosingName_iff_instance
    : findParentName parentGraph parentSymbols 5 = enclosingName parentGraph parentSymbols 5
        ↔ DirectlyIn parentGraph parentSymbols 5
          ∨ ∀ id ∈ parentGraph.ancestors 10 5, ownerName? parentGraph parentSymbols id = none :=
  findParentName_eq_enclosingName_iff oneParent_parentGraph 5

-- What the method sets is not found in the class, nor the connection in the module
theorem not_findParentName_eq_enclosingName_method
    : (¬∀ g symbols nodeId, InMemoryGraph.OneParent g →
        findParentName g symbols nodeId = enclosingName g symbols nodeId)
        ∧ [3, 6].map (findParentName parentGraph parentSymbols)
          = ["unknown".toList, "unknown".toList]
        ∧ [3, 6].map (enclosingName parentGraph parentSymbols)
          = ["class c".toList, "module m".toList] := by
  refine ⟨?_, by decide, by decide⟩
  intro h
  have heq := h parentGraph parentSymbols 3 oneParent_parentGraph
  revert heq
  decide

end UvmTool

end HdlGraph
