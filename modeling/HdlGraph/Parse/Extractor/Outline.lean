import HdlGraph.Library.Rose
import HdlGraph.Parse.Extractor.Basic

/-!
This module contains the abstract view of extraction. What a piece of syntax declares is an outline:
a forest of named kinds, each with the edge that ties it to its parent, without ids and without
interned names. `emit` writes an outline into the extractor's state; every extractor function is
shown to be `emit` of the outline of its node, and all facts about ids and edges are facts about
`emit`.
-/

namespace HdlGraph

-- A declared item: what its node says, where it starts and how its parent refers to it
structure Declared where
  kind : NodeKind Text
  edge : EdgeType
  pos : Position
  deriving DecidableEq, Repr

abbrev Outline := Rose Declared

namespace Outline

def leaf (node : Cst) (kind : NodeKind Text) (edge : EdgeType) : Outline :=
  .node ⟨kind, edge, node.pos⟩ []

end Outline

namespace Declared

def namedNode (id : NodeId) (d : Declared) : NamedNode where
  id := id
  kind := d.kind
  line := d.pos.row + 1
  col := d.pos.col

end Declared

namespace ExtractM

theorem bind_apply (x : ExtractM α) (f : α → ExtractM β) (s : ExtractState)
    : (x >>= f) s = f (x s).1 (x s).2 :=
  rfl

theorem pure_apply (a : α) (s : ExtractState) : (pure a : ExtractM α) s = (a, s) := rfl

mutual

def emit (parentId : NodeId) : Outline → ExtractM NodeId
  | .node d children => do
    let kind ← d.kind.mapM intern
    let id ← addChild d.pos kind parentId d.edge
    emitAll id children
    return id

def emitAll (parentId : NodeId) : List Outline → ExtractM Unit
  | [] => return ()
  | o :: os => do
    let _ ← emit parentId o
    emitAll parentId os

end

@[simp]
theorem emitAll_nil (parentId : NodeId) : emitAll parentId [] = pure () := by simp only [emitAll]

theorem emitAll_cons (parentId : NodeId) (o : Outline) (os : List Outline)
    : emitAll parentId (o :: os) = emit parentId o >>= fun _ => emitAll parentId os := by
  simp only [emitAll]

theorem emitAll_append (parentId : NodeId) (os os' : List Outline)
    : emitAll parentId (os ++ os') = emitAll parentId os >>= fun _ => emitAll parentId os' := by
  induction os with
  | nil => simp
  | cons o os ih => simp [emitAll_cons, ih]

theorem emitAll_singleton (parentId : NodeId) (o : Outline)
    : emitAll parentId [o] = emit parentId o >>= fun _ => pure () := by
  simp [emitAll_cons]

theorem forM_eq_emitAll {α : Type} (parentId : NodeId) (xs : List α) (f : α → ExtractM Unit)
    (outline : α → List Outline) (hf : ∀ x, f x = emitAll parentId (outline x))
    : xs.forM f = emitAll parentId (xs.flatMap outline) := by
  induction xs with
  | nil => simp
  | cons x xs ih => rw [List.forM, List.flatMap_cons, emitAll_append, hf, ih]

/--
What a run of the extractor adds to its state: ids from `count` new ones, `nodes` (as their names
read) and `edges`. Symbols that were interned before keep their ids.
-/
structure Grows (s s' : ExtractState) (count : Nat) (nodes : List NamedNode) (edges : List Edge)
    : Prop where
  nextId : s'.extractor.nextId = s.extractor.nextId + count
  fileId : s'.extractor.currentFileId = s.extractor.currentFileId
  symbols : s.extractor.symbols.Extends s'.extractor.symbols
  edges : s'.edges = s.edges ++ edges
  nodes : ∃ added : List GraphNode, s'.nodes = s.nodes ++ added ∧
    added.map (·.named s'.extractor.symbols) = nodes.map some

namespace Grows

theorem refl (s : ExtractState) : Grows s s 0 [] [] where
  nextId := rfl
  fileId := rfl
  symbols := .refl _
  edges := (List.append_nil _).symm
  nodes := ⟨[], by simp⟩

theorem trans {s₁ s₂ s₃ : ExtractState} (h₁ : Grows s₁ s₂ c₁ ns₁ es₁) (h₂ : Grows s₂ s₃ c₂ ns₂ es₂)
    : Grows s₁ s₃ (c₁ + c₂) (ns₁ ++ ns₂) (es₁ ++ es₂) where
  nextId := by rw [h₂.nextId, h₁.nextId, Nat.add_assoc]
  fileId := h₂.fileId.trans h₁.fileId
  symbols := h₁.symbols.trans h₂.symbols
  edges := by rw [h₂.edges, h₁.edges, List.append_assoc]
  nodes := by
    have ⟨added₁, heq₁, hnamed₁⟩ := h₁.nodes
    have ⟨added₂, heq₂, hnamed₂⟩ := h₂.nodes
    refine ⟨added₁ ++ added₂, by rw [heq₂, heq₁, List.append_assoc], ?_⟩
    rw [List.map_append, List.map_append, hnamed₂]
    congr 1
    rw [← hnamed₁]
    apply List.map_congr_left
    intro node hnode
    have : node.named s₂.extractor.symbols ∈ ns₁.map some := by
      rw [← hnamed₁]
      exact List.mem_map_of_mem hnode
    have ⟨content, _, hcontent⟩ := List.mem_map.mp this
    rw [← hcontent, GraphNode.named_of_extends h₂.symbols hcontent.symm]

end Grows

theorem intern_grows (text : Text) (s : ExtractState) : Grows s (intern text s).2 0 [] [] where
  nextId := rfl
  fileId := rfl
  symbols := s.extractor.symbols.intern_extends text
  edges := (List.append_nil _).symm
  nodes := ⟨[], by simp [intern]⟩

theorem resolve_intern (text : Text) (s : ExtractState)
    : (intern text s).2.extractor.symbols.resolve (intern text s).1 = some text :=
  s.extractor.symbols.resolve_intern text

theorem mapM_intern (kind : NodeKind Text) (s : ExtractState)
    : Grows s (kind.mapM intern s).2 0 [] []
        ∧ (kind.mapM intern s).1.resolve (kind.mapM intern s).2.extractor.symbols = some kind := by
  have one : ∀ (t : Text) (s : ExtractState), Grows s (intern t s).2 0 [] [] := intern_grows
  have two : ∀ (t u : Text) (s : ExtractState), Grows s (intern u (intern t s).2).2 0 [] [] := by
    intro t u s
    simpa using (one t s).trans (one u (intern t s).2)
  have named : ∀ (t : Text) (s : ExtractState),
      (intern t s).2.extractor.symbols.resolve (intern t s).1 = some t := resolve_intern
  have first : ∀ (t u : Text) (s : ExtractState),
      (intern u (intern t s).2).2.extractor.symbols.resolve (intern t s).1 = some t := by
    intro t u s
    exact (one u (intern t s).2).symbols.resolve_eq (named t s)
  cases kind
  case beginBlock label =>
    cases label with
    | none => exact ⟨.refl s, rfl⟩
    | some label =>
      refine ⟨one label s, ?_⟩
      simp only [NodeKind.resolve, NodeKind.mapM, bind_apply, pure_apply, Option.bind_eq_bind,
        Option.bind_some, Option.pure_def, named]
  case «class» name parent =>
    cases parent with
    | none =>
      refine ⟨one name s, ?_⟩
      simp only [NodeKind.resolve, NodeKind.mapM, bind_apply, pure_apply, Option.bind_eq_bind,
        Option.bind_some, Option.pure_def, named]
    | some parent =>
      refine ⟨two name parent s, ?_⟩
      simp only [NodeKind.resolve, NodeKind.mapM, bind_apply, pure_apply, Option.bind_eq_bind,
        Option.bind_some, Option.pure_def, named, first]
  all_goals
    first
    | exact ⟨.refl s, rfl⟩
    | refine ⟨one _ s, ?_⟩
      simp only [NodeKind.resolve, NodeKind.mapM, bind_apply, pure_apply, Option.bind_eq_bind,
        Option.bind_some, Option.pure_def, named]
    | refine ⟨two _ _ s, ?_⟩
      simp only [NodeKind.resolve, NodeKind.mapM, bind_apply, pure_apply, Option.bind_eq_bind,
        Option.bind_some, Option.pure_def, named, first]

theorem addChild_grows (d : Declared) (kind : NodeKind InternedString) (parentId : NodeId)
    (s : ExtractState) (hkind : kind.resolve s.extractor.symbols = some d.kind)
    : Grows s (addChild d.pos kind parentId d.edge s).2 1
        [d.namedNode s.extractor.nextId] [⟨parentId, s.extractor.nextId, d.edge⟩] where
  nextId := rfl
  fileId := rfl
  symbols := .refl _
  edges := rfl
  nodes := by
    refine ⟨[makeNode s.extractor.currentFileId d.pos s.extractor.nextId kind], rfl, ?_⟩
    change [GraphNode.named s.extractor.symbols _] = [some _]
    simp only [GraphNode.named, makeNode, hkind]
    rfl

@[simp]
theorem addChild_fst (pos : Position) (kind : NodeKind InternedString) (parentId : NodeId)
    (edgeType : EdgeType) (s : ExtractState)
    : (addChild pos kind parentId edgeType s).1 = s.extractor.nextId :=
  rfl

def nodesOf (xs : List (Rose.Placement Declared)) : List NamedNode :=
  xs.map fun x => x.label.namedNode x.id

def edgesOf (xs : List (Rose.Placement Declared)) : List Edge :=
  xs.map fun x => ⟨x.parent, x.id, x.label.edge⟩

theorem nodesOf_append (xs ys : List (Rose.Placement Declared))
    : nodesOf (xs ++ ys) = nodesOf xs ++ nodesOf ys := by
  simp [nodesOf]

theorem edgesOf_append (xs ys : List (Rose.Placement Declared))
    : edgesOf (xs ++ ys) = edgesOf xs ++ edgesOf ys := by
  simp [edgesOf]

mutual

theorem emit_grows (parentId : NodeId) : (o : Outline) → (s : ExtractState) →
    (emit parentId o s).1 = s.extractor.nextId
      ∧
    Grows s (emit parentId o s).2 o.size
      (nodesOf (Rose.place parentId s.extractor.nextId o))
      (edgesOf (Rose.place parentId s.extractor.nextId o))
  | .node d children, s => by
    have ⟨hintern, hkind⟩ := mapM_intern d.kind s
    have hchild := addChild_grows d _ parentId _ hkind
    have hchildren := emitAll_grows s.extractor.nextId children
      (addChild d.pos (d.kind.mapM intern s).1 parentId d.edge (d.kind.mapM intern s).2).2
    rw [hchild.nextId, hintern.nextId] at hchildren
    have hall := (hintern.trans hchild).trans hchildren
    simp only [emit, bind_apply, pure_apply, addChild_fst, Rose.place, Rose.size,
      hintern.nextId, Nat.add_zero]
    refine ⟨trivial, ?_⟩
    simpa [hintern.nextId, nodesOf, edgesOf] using hall

theorem emitAll_grows (parentId : NodeId) : (os : List Outline) → (s : ExtractState) →
    Grows s (emitAll parentId os s).2 (Rose.sizeAll os)
      (nodesOf (Rose.placeAll parentId s.extractor.nextId os))
      (edgesOf (Rose.placeAll parentId s.extractor.nextId os))
  | [], s => by
    rw [emitAll_nil, pure_apply]
    simpa [nodesOf, edgesOf] using Grows.refl s
  | o :: os, s => by
    have ⟨_, hfirst⟩ := emit_grows parentId o s
    have hrest := emitAll_grows parentId os (emit parentId o s).2
    rw [hfirst.nextId] at hrest
    rw [emitAll_cons, bind_apply, Rose.placeAll_cons, nodesOf_append, edgesOf_append,
      Rose.sizeAll_cons]
    exact hfirst.trans hrest

end

end ExtractM
end HdlGraph
