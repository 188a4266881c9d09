import HdlGraph.Parse.Extractor.Scoped

/-!
This module contains which names a file defines, and which of their nodes are found from the
`SourceFile` node over `Contains` and `Defines` edges: all but those in modules without a name.
-/

namespace HdlGraph

open ExtractM

def scopeEdges (edges : List Edge) : List Edge := edges.filter fun e => e.edgeType.isScope

@[simp]
theorem mem_scopeEdges {edges : List Edge} {e : Edge}
    : e ∈ scopeEdges edges ↔ e ∈ edges ∧ e.edgeType.isScope = true := by
  simp [scopeEdges]

namespace Outline

mutual

def definedNames : Outline → List Text
  | .node d children => d.kind.definedName.toList ++ definedNamesAll children

def definedNamesAll : List Outline → List Text
  | [] => []
  | o :: os => definedNames o ++ definedNamesAll os

end

mutual

theorem mem_definedNames_iff (name : Text) (p b : NodeId) : (o : Outline) →
    (name ∈ o.definedNames ↔ ∃ x ∈ o.place p b, x.label.kind.definedName = some name)
  | .node d children => by
    have hchildren := mem_definedNamesAll_iff name b (b + 1) children
    simp only [definedNames, Rose.place, List.mem_append, Option.mem_toList, List.mem_cons]
    grind

theorem mem_definedNamesAll_iff (name : Text) (p b : NodeId) : (os : List Outline) →
    (name ∈ definedNamesAll os ↔ ∃ x ∈ Rose.placeAll p b os, x.label.kind.definedName = some name)
  | [] => by simp [definedNamesAll]
  | o :: os => by
    have hfirst := mem_definedNames_iff name p b o
    have hrest := mem_definedNamesAll_iff name p (b + o.size) os
    simp only [definedNamesAll, Rose.placeAll_cons, List.mem_append]
    grind

end

theorem definedNamesAll_append (os os' : List Outline)
    : definedNamesAll (os ++ os') = definedNamesAll os ++ definedNamesAll os' := by
  induction os with
  | nil => simp [definedNamesAll]
  | cons o os ih => simp [definedNamesAll, ih]

mutual

theorem reaches_place (p b : NodeId) : {o : Outline} → o.Scoped → {x : Rose.Placement Declared} →
    x ∈ o.place p b →
    x.label.kind.definedName ≠ none → Reaches (scopeEdges (edgesOf (o.place p b))) p x.id
  | .node d children, hscoped, x, hx, hname => by
    rw [Scoped] at hscoped
    rw [Rose.place] at hx ⊢
    have hstep : d.edge.isScope = true →
        Reaches (scopeEdges (edgesOf (⟨p, b, d⟩ :: Rose.placeAll b (b + 1) children))) p b := by
      intro hedge
      refine .single ⟨⟨p, b, d.edge⟩, ?_, rfl, rfl⟩
      simp [edgesOf, hedge]
    cases List.mem_cons.mp hx with
    | inl heq =>
      subst heq
      exact hstep (hscoped.1.resolve_right fun h => hname h.1)
    | inr hx =>
      have hedge : d.edge.isScope = true := by
        refine hscoped.1.resolve_right fun h => ?_
        rw [h.2, Rose.placeAll_nil] at hx
        exact List.not_mem_nil hx
      have hbelow := reaches_placeAll b (b + 1) hscoped.2 hx hname
      refine (hstep hedge).trans (hbelow.mono ?_)
      intro e he
      rw [mem_scopeEdges] at *
      exact ⟨List.mem_cons_of_mem _ he.1, he.2⟩

theorem reaches_placeAll (p b : NodeId) : {os : List Outline} → ScopedAll os →
    {x : Rose.Placement Declared} →
    x ∈ Rose.placeAll p b os → x.label.kind.definedName ≠ none →
    Reaches (scopeEdges (edgesOf (Rose.placeAll p b os))) p x.id
  | [], _, x, hx, _ => by simp at hx
  | o :: os, hscoped, x, hx, hname => by
    rw [scopedAll_cons] at hscoped
    rw [Rose.placeAll_cons] at hx ⊢
    cases List.mem_append.mp hx with
    | inl hx =>
      refine (reaches_place p b hscoped.1 hx hname).mono ?_
      intro e he
      rw [mem_scopeEdges, edgesOf_append] at *
      exact ⟨List.mem_append_left _ he.1, he.2⟩
    | inr hx =>
      refine (reaches_placeAll p (b + o.size) hscoped.2 hx hname).mono ?_
      intro e he
      rw [mem_scopeEdges, edgesOf_append] at *
      exact ⟨List.mem_append_right _ he.1, he.2⟩

end

end Outline

namespace TopItem

open Outline

def shown : TopItem → List Outline
  | declared o => [o]
  | module name pos items => if name = [] then [] else [.node ⟨.module name, .contains, pos⟩ items]
  | .class o => [o]

def hidden : TopItem → List Outline
  | module name _ items => if name = [] then items else []
  | _ => []

theorem shown_eq_or (item : TopItem)
    : (∃ o, item.shown = [o] ∧ item.hidden = [] ∧ item.outline = o)
        ∨ ∃ pos items, item = .module [] pos items ∧ item.shown = [] ∧ item.hidden = items := by
  cases item with
  | declared o => exact Or.inl ⟨o, rfl, rfl, rfl⟩
  | «class» o => exact Or.inl ⟨o, rfl, rfl, rfl⟩
  | module name pos items =>
    by_cases hname : name = []
    . subst hname
      exact Or.inr ⟨pos, items, rfl, rfl, rfl⟩
    . left
      refine ⟨.node ⟨.module name, .contains, pos⟩ items, ?_, ?_, rfl⟩
      . simp [shown, hname]
      . simp [hidden, hname]

theorem mem_nodesAt_of_shown {item : TopItem} {o : Outline} (h : item.shown = [o]) (root b : NodeId)
    (node : NamedNode)
    : node ∈ item.nodesAt root b ↔ node ∈ nodesOf (o.place root b) := by
  cases item with
  | declared o' => rw [← List.singleton_inj.mp h, nodesAt]
  | «class» o' => rw [← List.singleton_inj.mp h, nodesAt]
  | module name pos items =>
    simp only [shown] at h
    split at h
    . simp at h
    . next hname =>
      rw [← List.singleton_inj.mp h, nodesAt, if_neg hname, Rose.place, List.mem_append,
        List.mem_singleton]
      change _ ↔ node ∈ _ :: nodesOf (Rose.placeAll b (b + 1) items)
      rw [List.mem_cons, or_comm]

theorem mem_edgesAt_of_shown {item : TopItem} {o : Outline} (h : item.shown = [o]) {root b : NodeId}
    {e : Edge} (he : e ∈ edgesOf (o.place root b))
    : e ∈ item.edgesAt root b := by
  cases item with
  | declared o' => rwa [← List.singleton_inj.mp h] at he
  | «class» o' =>
    rw [← List.singleton_inj.mp h] at he
    exact List.mem_append_left _ he
  | module name pos items =>
    simp only [shown] at h
    split at h
    . simp at h
    . next hname =>
      rw [← List.singleton_inj.mp h, Rose.place] at he
      change e ∈ _ :: edgesOf (Rose.placeAll b (b + 1) items) at he
      rw [edgesAt, if_neg hname, List.mem_append, List.mem_singleton]
      exact (List.mem_cons.mp he).symm

theorem exists_mem_nodesAt_iff (root b : NodeId) (item : TopItem) (name : Text)
    : (∃ node ∈ item.nodesAt root b, node.kind.definedName = some name)
        ↔
      name ∈ definedNamesAll item.shown ∨ name ∈ definedNamesAll item.hidden := by
  rcases item.shown_eq_or with ⟨o, hshown, hhidden, _⟩ | ⟨pos, items, rfl, hshown, hhidden⟩
  . rw [hshown, hhidden, mem_definedNamesAll_iff _ root b, mem_definedNamesAll_iff _ root b]
    simp [mem_nodesAt_of_shown hshown, nodesOf, Declared.namedNode]
  . rw [hshown, hhidden, mem_definedNamesAll_iff _ root b, mem_definedNamesAll_iff _ b (b + 1)]
    simp [nodesAt, nodesOf, Declared.namedNode]

theorem reaches_of_shown {item : TopItem} {o : Outline} (h : item.shown = [o])
    (hscoped : ScopedAll item.shown) {root b : NodeId} {node : NamedNode}
    (hnode : node ∈ item.nodesAt root b) (hname : node.kind.definedName ≠ none)
    : Reaches (scopeEdges (item.edgesAt root b)) root node.id := by
  rw [mem_nodesAt_of_shown h] at hnode
  obtain ⟨x, hx, rfl⟩ := List.mem_map.mp hnode
  rw [h, scopedAll_cons] at hscoped
  refine (reaches_place root b hscoped.1 hx hname).mono ?_
  intro e he
  rw [mem_scopeEdges] at *
  exact ⟨mem_edgesAt_of_shown h he.1, he.2⟩

end TopItem

namespace FileOutline

open Outline TopItem

def shownNames (file : FileOutline) : List Text :=
  definedNamesAll (file.items.flatMap TopItem.shown)

def hiddenNames (file : FileOutline) : List Text :=
  definedNamesAll (file.items.flatMap TopItem.hidden)

theorem mem_definedNamesAll_flatMap {items : List TopItem}
    {f : TopItem → List Outline} {name : Text}
    : name ∈ definedNamesAll (items.flatMap f)
        ↔ ∃ item ∈ items, name ∈ definedNamesAll (f item) := by
  induction items with
  | nil => simp [definedNamesAll]
  | cons item items ih => simp [definedNamesAll_append, ih]

theorem exists_mem_nodesAllAt {items : List TopItem} {root b : NodeId} {node : NamedNode}
    (hnode : node ∈ nodesAllAt root b items)
    : ∃ before item after, items = before ++ item :: after
        ∧ node ∈ item.nodesAt root (b + sizeAll before) := by
  induction items generalizing b with
  | nil => simp [nodesAllAt] at hnode
  | cons item items ih =>
    rw [nodesAllAt, List.mem_append] at hnode
    cases hnode with
    | inl hnode => exact ⟨[], item, items, rfl, hnode⟩
    | inr hnode =>
      obtain ⟨before, item', after, rfl, hmem⟩ := ih hnode
      refine ⟨item :: before, item', after, rfl, ?_⟩
      rwa [sizeAll_cons, ← Nat.add_assoc]

theorem target_mem_nodesAt {b : NodeId} {file : FileOutline} {e : Edge} (he : e ∈ file.edgesAt b)
    : e.target ∈ (file.nodesAt b).map NamedNode.id := by
  have hitem : ∀ (item : TopItem) (b' : NodeId), e ∈ item.edgesAt b b' →
      e.target ∈ (item.nodesAt b b').map NamedNode.id := by
    intro item b' he
    have htargets : ∀ xs : List (Rose.Placement Declared), e ∈ edgesOf xs →
        e.target ∈ (nodesOf xs).map NamedNode.id := by
      intro xs he
      rw [map_id_nodesOf, ← map_target_edgesOf]
      exact List.mem_map_of_mem he
    cases item with
    | declared o => exact htargets _ he
    | «class» o =>
      rw [TopItem.edgesAt, List.mem_append, List.mem_singleton] at he
      cases he with
      | inl he => exact htargets _ he
      | inr heq =>
        have hpos := o.size_pos
        rw [heq, TopItem.nodesAt, map_id_nodesOf, Rose.map_id_place, List.mem_range'_1]
        grind
    | module name pos items =>
      rw [TopItem.edgesAt, List.mem_append] at he
      rw [TopItem.nodesAt, List.map_append, List.mem_append]
      refine he.imp (htargets _) ?_
      intro he
      split at he
      . simp at he
      . next hname =>
        rw [List.mem_singleton.mp he]
        simp [Declared.namedNode, hname]
  have hall : ∀ (items : List TopItem) (b' : NodeId), e ∈ edgesAllAt b b' items →
      e.target ∈ (nodesAllAt b b' items).map NamedNode.id := by
    intro items
    induction items with
    | nil => simp [edgesAllAt]
    | cons item items ih =>
      intro b' he
      rw [edgesAllAt, List.mem_append] at he
      rw [nodesAllAt, List.map_append, List.mem_append]
      exact he.imp (hitem item b') (ih (b' + item.size))
  exact List.mem_cons_of_mem _ (hall file.items (b + 1) he)

theorem exists_mem_nodesAt_iff (b : NodeId) (file : FileOutline) (name : Text)
    : (∃ node ∈ file.nodesAt b, node.kind.definedName = some name)
        ↔
      name ∈ file.shownNames ∨ name ∈ file.hiddenNames := by
  simp only [shownNames, hiddenNames, mem_definedNamesAll_flatMap]
  constructor
  . rintro ⟨node, hnode, hname⟩
    cases List.mem_cons.mp hnode with
    | inl heq =>
      subst heq
      simp [rootNode, NodeKind.definedName] at hname
    | inr hnode =>
      obtain ⟨before, item, after, hsplit, hmem⟩ := exists_mem_nodesAllAt hnode
      have := (item.exists_mem_nodesAt_iff _ _ name).mp ⟨node, hmem, hname⟩
      have hitem : item ∈ file.items := hsplit ▸ List.mem_append_right _ List.mem_cons_self
      grind
  . intro h
    obtain ⟨item, hitem, hname⟩ : ∃ item ∈ file.items,
        name ∈ definedNamesAll item.shown ∨ name ∈ definedNamesAll item.hidden := by grind
    obtain ⟨before, after, hsplit⟩ := List.append_of_mem hitem
    obtain ⟨node, hnode, hkind⟩ :=
      (item.exists_mem_nodesAt_iff b (b + 1 + sizeAll before) name).mpr hname
    refine ⟨node, ?_, hkind⟩
    rw [nodesAt_split b hsplit]
    simp [hnode]

theorem exists_reaches_iff {file : FileOutline}
    (hscoped : ∀ item ∈ file.items, ScopedAll item.shown) (b : NodeId) (name : Text)
    : (∃ node ∈ file.nodesAt b, node.kind.definedName = some name
        ∧ Reaches (scopeEdges (file.edgesAt b)) b node.id)
        ↔
      name ∈ file.shownNames := by
  rw [shownNames, mem_definedNamesAll_flatMap]
  constructor
  . rintro ⟨node, hnode, hname, hreach⟩
    cases List.mem_cons.mp hnode with
    | inl heq =>
      subst heq
      simp [rootNode, NodeKind.definedName] at hname
    | inr hnode =>
      obtain ⟨before, item, after, hsplit, hmem⟩ := exists_mem_nodesAllAt hnode
      have hitem : item ∈ file.items := hsplit ▸ List.mem_append_right _ List.mem_cons_self
      have hnames := (item.exists_mem_nodesAt_iff _ _ name).mp ⟨node, hmem, hname⟩
      rcases item.shown_eq_or with ⟨o, _, hhidden, _⟩ | ⟨pos, items, rfl, _, _⟩
      . rw [hhidden] at hnames
        exact ⟨item, hitem, hnames.resolve_right (by simp [definedNamesAll])⟩
      . -- A path from the file does not enter the block of the module
        have hblock :=
          List.mem_range'_1.mp
            ((TopItem.ids_nodesAt _ _ _).subset (List.mem_map_of_mem (f := NamedNode.id) hmem))
        have hout := Reaches.within hreach
          (S := fun id => ¬(b + 1 + sizeAll before ≤ id
            ∧ id < b + 1 + sizeAll before + (TopItem.module [] pos items).size))
          (by grind) (by
            intro e he hsource
            refine ⟨?_, he⟩
            intro htarget
            have he := (mem_scopeEdges.mp he).1
            have hfrom := mem_block_of_nameless hsplit he htarget
            have hlt := (mem_edgesAt he).2.1
            grind)
        exact absurd hblock hout.1
  . rintro ⟨item, hitem, hname⟩
    obtain ⟨before, after, hsplit⟩ := List.append_of_mem hitem
    rcases item.shown_eq_or with ⟨o, hshown, _, _⟩ | ⟨_, _, _, hshown, _⟩
    . obtain ⟨node, hnode, hkind⟩ :=
        (item.exists_mem_nodesAt_iff b (b + 1 + sizeAll before) name).mpr (Or.inl hname)
      have hreach := reaches_of_shown hshown (hscoped item hitem) hnode (by simp [hkind])
      refine ⟨node, ?_, hkind, hreach.mono ?_⟩
      . rw [nodesAt_split b hsplit]
        simp [hnode]
      . intro e he
        rw [mem_scopeEdges, edgesAt_split b hsplit] at *
        simp [he]
    . rw [hshown] at hname
      simp [definedNamesAll] at hname

end FileOutline

namespace GraphExtractor

open Outline

theorem scopedAll_shown (tree : Cst) : ∀ item ∈ (fileOutline tree).items, ScopedAll item.shown := by
  intro item hitem
  obtain ⟨child, _, hmem⟩ := List.mem_flatMap.mp hitem
  have hdeclared : ∀ os : List Outline, ScopedAll os →
      ∀ item ∈ os.map TopItem.declared, ScopedAll item.shown := by
    intro os hos item hitem
    obtain ⟨o, ho, rfl⟩ := List.mem_map.mp hitem
    obtain ⟨before, after, rfl⟩ := List.append_of_mem ho
    rw [scopedAll_append, scopedAll_cons] at hos
    simpa [TopItem.shown] using hos.2.1
  unfold topItems at hmem
  split at hmem
  . rw [List.mem_singleton.mp hmem, TopItem.shown]
    split
    . simp
    . rw [scopedAll_cons]
      exact ⟨scoped_node rfl ((fitAll_moduleItemsOutline child).scopedAll), scopedAll_nil⟩
  . exact hdeclared _ (plainFitAll_namedOutline .configBlock child (fun _ => rfl) fun _ =>
      rfl).scopedAll item hmem
  . exact hdeclared _ (plainFitAll_bindOutline child).scopedAll item hmem
  . exact hdeclared _ (plainFitAll_packageOutline child).scopedAll item hmem
  . exact hdeclared _ (plainFitAll_interfaceOutline child).scopedAll item hmem
  . have hclass := (fitAll_classOutline child).scopedAll
    cases houtline : classOutline child with
    | none => simp [houtline] at hmem
    | some o =>
      rw [houtline] at hmem hclass
      rw [List.mem_singleton.mp hmem]
      exact hclass
  . simp at hmem

end GraphExtractor
end HdlGraph
