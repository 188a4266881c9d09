import HdlGraph.Parse.Extractor.Scoped
import HdlGraph.Parse.Extractor.TopLevel

/-!
This module contains what stands at the top level of a file: which items there are, how many edges
lead to the node of each one from the node of the file, and what is directly below that node.
-/

namespace HdlGraph

open ExtractM
open scoped List

namespace NodeKind

def IsTopLevel : NodeKind ν → Prop
  | configBlock _ | bindDirective _ | package _ | interface _ => True
  | _ => False

def IsClassMember : NodeKind ν → Prop
  | property _ | method _ _ | factoryReg _ _ | .class _ _ => True
  | _ => False

variable {kind : NodeKind ν}

theorem isClassMember_of_isClass (h : kind.isClass = true) : kind.IsClassMember := by
  cases kind <;> simp_all [isClass, IsClassMember]

theorem edge_of_isClass {edge : EdgeType} (h : kind.HangsBy edge) (hkind : kind.isClass = true)
    : edge = .contains := by
  cases kind <;> simp_all [isClass, HangsBy]

theorem edge_of_isTopLevel {edge : EdgeType} (h : kind.HangsBy edge) (hkind : kind.IsTopLevel)
    : edge = .contains := by
  cases kind <;> simp_all [IsTopLevel, HangsBy]

end NodeKind

namespace TopItem

structure Regular (item : TopItem) : Prop where
  hangsBy : ∀ d ∈ item.outline.labels, d.kind.HangsBy d.edge
  declared : ∀ o, item = declared o → o.label.kind.IsTopLevel
  classItem : ∀ o, item = .class o → o.label.kind.isClass = true
    ∧ ∀ child ∈ o.children, child.label.kind.IsClassMember

-- How many edges lead from the node of the file to the node of the item. A module without a name
-- has no node.
def visits : TopItem → Nat
  | declared _ => 1
  | module name _ _ => if name = [] then 0 else 1
  | .class _ => 2

def rootAt (b : NodeId) (item : TopItem) : NamedNode := item.outline.label.namedNode b

def childrenAt (b : NodeId) (item : TopItem) : List (EdgeType × NamedNode) :=
  ((Rose.placeAll b (b + 1) item.outline.children).filter (·.parent = b)).map fun z =>
    (z.label.edge, z.label.namedNode z.id)

def kinds (item : TopItem) : List (NodeKind Text) :=
  (if item.visits = 0 then [] else [item.outline.label.kind])
  ++ (Rose.labelsAll item.outline.children).map Declared.kind

/-! ## The nodes of an item -/

theorem perm_nodesAt (root b : NodeId) (item : TopItem)
    : item.nodesAt root b
        ~ (if item.visits = 0 then [] else [item.rootAt b])
          ++ nodesOf (Rose.placeAll b (b + 1) item.outline.children) := by
  have hplace : ∀ o : Outline, nodesOf (o.place root b)
      = [o.label.namedNode b] ++ nodesOf (Rose.placeAll b (b + 1) o.children) := by
    intro o
    cases o
    rfl
  cases item with
  | declared o => rw [nodesAt, hplace]; rfl
  | «class» o => rw [nodesAt, hplace]; rfl
  | module name pos items =>
    rw [nodesAt, visits]
    by_cases hname : name = []
    . simp [hname, outline, Rose.children]
    . simp only [hname, if_false]
      exact List.perm_append_comm

theorem map_kind_nodesAt (root b : NodeId) (item : TopItem)
    : (item.nodesAt root b).map NamedNode.kind ~ item.kinds := by
  refine ((item.perm_nodesAt root b).map _).trans (.of_eq ?_)
  rw [List.map_append, kinds, ← Rose.map_label_placeAll b (b + 1), nodesOf,
    List.map_map, List.map_map]
  split <;> rfl

theorem filter_placements {root b : NodeId} (h : root < b) (item : TopItem)
    : (item.placements root b).filter (·.parent = b)
        = (Rose.placeAll b (b + 1) item.outline.children).filter (·.parent = b) := by
  have hplace : ∀ o : Outline, (o.place root b).filter (·.parent = b)
      = (Rose.placeAll b (b + 1) o.children).filter (·.parent = b) := by
    intro o
    cases o
    rw [Rose.place, List.filter_cons_of_neg (by simpa using Nat.ne_of_lt h)]
    rfl
  cases item with
  | declared o => exact hplace o
  | «class» o => exact hplace o
  | module name pos items => rfl

theorem edgesOf_placements {root b : NodeId} (h : root < b) (item : TopItem)
    : edgesOf ((item.placements root b).filter (·.parent = b))
        = (item.childrenAt b).map fun c => ⟨b, c.2.id, c.1⟩ := by
  rw [filter_placements h, edgesOf, childrenAt, List.map_map]
  apply List.map_congr_left
  intro z hz
  have hparent : z.parent = b := by simpa using (List.mem_filter.mp hz).2
  rw [← hparent]
  rfl

theorem mem_nodesAt_of_mem_childrenAt {b : NodeId} {item : TopItem} {c : EdgeType × NamedNode}
    (root : NodeId) (hc : c ∈ item.childrenAt b)
    : c.2 ∈ item.nodesAt root b := by
  obtain ⟨z, hz, rfl⟩ := List.mem_map.mp hc
  rw [(item.perm_nodesAt root b).mem_iff, List.mem_append]
  exact Or.inr (List.mem_map.mpr ⟨z, List.mem_of_mem_filter hz, rfl⟩)

theorem rootAt_mem_nodesAt {root b : NodeId} {item : TopItem} (h : item.visits ≠ 0)
    : item.rootAt b ∈ item.nodesAt root b := by
  rw [(item.perm_nodesAt root b).mem_iff, if_neg h]
  exact List.mem_cons_self

theorem map_snd_childrenAt (b : NodeId) (item : TopItem)
    : (item.childrenAt b).map (fun c => (c.1, c.2.kind)) = item.outline.children.map fun o =>
        (o.label.edge, o.label.kind) := by
  have hlabels := congrArg (List.map fun d : Declared => (d.edge, d.kind))
    (Rose.map_label_filter_placeAll (Nat.lt_succ_self b) item.outline.children)
  rw [List.map_map, List.map_map] at hlabels
  rw [childrenAt, List.map_map]
  exact hlabels

/-! ## The edges to an item -/

theorem filter_source_root {root b : NodeId} (h : root < b) {item : TopItem}
    (hregular : item.Regular)
    : (item.edgesAt root b).filter (·.source = root)
        = List.replicate item.visits ⟨root, b, .contains⟩ := by
  have hplace : ∀ o : Outline, o.label.edge = .contains →
      (edgesOf (o.place root b)).filter (·.source = root) = [⟨root, b, .contains⟩] := by
    intro o hedge
    cases o with
    | node d children =>
      have hbelow : (edgesOf (Rose.placeAll b (b + 1) children)).filter (·.source = root) = [] := by
        rw [List.filter_eq_nil_iff]
        intro e he
        obtain ⟨x, hx, rfl⟩ := List.mem_map.mp he
        simpa using Rose.parent_ne_of_mem_placeAll h hx
      rw [Rose.place, edgesOf, List.map_cons, List.filter_cons_of_pos (by simp)]
      exact congrArg₂ List.cons (congrArg _ hedge) hbelow
  have hlabel : ∀ o : Outline, o.label ∈ o.labels := by
    intro o
    cases o
    simp [Rose.label, Rose.labels]
  cases item with
  | declared o =>
    have hedge :=
      NodeKind.edge_of_isTopLevel (hregular.hangsBy _ (hlabel o)) (hregular.declared o rfl)
    rw [edgesAt, hplace o hedge, visits, List.replicate_one]
  | «class» o =>
    have hedge :=
      NodeKind.edge_of_isClass (hregular.hangsBy _ (hlabel o)) (hregular.classItem o rfl).1
    rw [edgesAt, List.filter_append, hplace o hedge, List.filter_cons_of_pos (by simp)]
    rfl
  | module name pos items =>
    rw [filter_source_module h, visits]
    split <;> rfl

theorem hangsBy_rootAt {item : TopItem} (hregular : item.Regular) (b : NodeId)
    : (item.rootAt b).kind.HangsBy .contains := by
  cases item with
  | declared o =>
    have hkind := hregular.declared o rfl
    change o.label.kind.HangsBy .contains
    revert hkind
    cases o.label.kind <;> simp [NodeKind.IsTopLevel, NodeKind.HangsBy]
  | «class» o =>
    have hkind := (hregular.classItem o rfl).1
    change o.label.kind.HangsBy .contains
    revert hkind
    cases o.label.kind <;> simp [NodeKind.isClass, NodeKind.HangsBy]
  | module name pos items => rfl

/-- Every edge to a node is one that nodes of its kind hang by. -/
theorem hangsBy_of_mem_edgesAt {root b : NodeId} (h : root < b) {item : TopItem}
    (hregular : item.Regular) {e : Edge} (he : e ∈ item.edgesAt root b) {node : NamedNode}
    (hnode : node ∈ item.nodesAt root b) (htarget : e.target = node.id)
    : node.kind.HangsBy e.edgeType := by
  have hnode' : node = item.rootAt b ∨ ∃ z ∈ Rose.placeAll b (b + 1) item.outline.children,
      z.label.namedNode z.id = node := by
    rw [(item.perm_nodesAt root b).mem_iff, List.mem_append] at hnode
    rcases hnode with hnode | hnode
    . split at hnode
      . simp at hnode
      . exact Or.inl (List.mem_singleton.mp hnode)
    . exact Or.inr (List.mem_map.mp hnode)
  by_cases hsource : e.source = root
  . -- an edge from the file, which ends in the node of the item
    have hmem : e ∈ (item.edgesAt root b).filter (·.source = root) :=
      List.mem_filter.mpr ⟨he, decide_eq_true hsource⟩
    rw [filter_source_root h hregular] at hmem
    obtain rfl := List.eq_of_mem_replicate hmem
    rcases hnode' with rfl | ⟨z, hz, rfl⟩
    . exact hangsBy_rootAt hregular b
    . have hid := (Rose.id_mem_placeAll hz).1
      exact absurd htarget (Nat.ne_of_lt hid)
  . have hmem : e ∈ (item.edgesAt root b).filter (·.source ≠ root) :=
      List.mem_filter.mpr ⟨he, decide_eq_true hsource⟩
    rw [filter_source_ne_root h] at hmem
    obtain ⟨w, hw, rfl⟩ := List.mem_map.mp hmem
    have hid := (Rose.id_mem_placeAll hw).1
    rcases hnode' with rfl | ⟨z, hz, rfl⟩
    . exact absurd htarget.symm (Nat.ne_of_lt hid)
    . have hnodup : ((Rose.placeAll b (b + 1) item.outline.children).map
          Rose.Placement.id).Nodup := by
        rw [Rose.map_id_placeAll]
        exact List.nodup_range' ..
      obtain rfl := List.inj_on_of_nodup_map hnodup hw hz htarget
      apply hregular.hangsBy
      have hlabel := List.mem_map_of_mem (f := Rose.Placement.label) hw
      rw [Rose.map_label_placeAll] at hlabel
      cases hout : item.outline with
      | node d children =>
        rw [hout] at hlabel
        exact List.mem_cons_of_mem _ hlabel

end TopItem

theorem FileOutline.hangsBy_of_mem_edgesAt {file : FileOutline}
    (hregular : ∀ item ∈ file.items, item.Regular) {b : NodeId} {e : Edge} (he : e ∈ file.edgesAt b)
    {node : NamedNode} (hnode : node ∈ file.nodesAt b) (htarget : e.target = node.id)
    : node.kind.HangsBy e.edgeType := by
  have hlt := mem_edgesAt he
  rw [nodesAt_eq, List.mem_cons] at hnode
  rcases hnode with rfl | hnode
  . -- no edge enters the file
    exact absurd htarget (Nat.ne_of_gt (Nat.lt_of_le_of_lt hlt.1 hlt.2.1))
  . rw [edgesAt_eq] at he
    obtain ⟨y, hy, hnode⟩ := List.mem_flatMap.mp hnode
    obtain ⟨y', hy', he⟩ := List.mem_flatMap.mp he
    have hends := TopItem.mem_edgesAt (lt_of_mem_placedItems hy') he
    have hcovers : Blocks.Covers TopItem.size y node.id := by
      have hid := (y.2.ids_nodesAt b y.1).subset (List.mem_map_of_mem hnode)
      rw [List.mem_range'_1] at hid
      exact hid
    obtain rfl := Blocks.eq_of_covers (file.placedItems_pairwise b) hy' hy (n := node.id)
      (htarget ▸ ⟨hends.2.2.1, hends.2.2.2⟩) hcovers
    have hitem : y'.2 ∈ file.items := file.map_snd_placedItems b ▸ List.mem_map_of_mem hy'
    exact TopItem.hangsBy_of_mem_edgesAt (lt_of_mem_placedItems hy') (hregular _ hitem)
      he hnode htarget

/-! ## What is extracted -/

namespace GraphExtractor

open Outline

theorem isClassMember_classOutline {node : Cst} {o : Outline} (h : classOutline node = some o)
    : o.label.kind.isClass = true ∧ ∀ child ∈ o.children, child.label.kind.IsClassMember := by
  have hclass : ∀ child, ∀ o ∈ (classOutline child).toList, o.label.kind.isClass = true := by
    intro child o ho
    cases child
    rw [classOutline] at ho
    split at ho
    . simp at ho
    . rw [Option.toList_some, List.mem_singleton] at ho
      subst ho
      rfl
  have hproperty : ∀ child, ∀ o ∈ classPropertyOutline child, o.label.kind.IsClassMember := by
    intro child o ho
    obtain ⟨data, _, ho⟩ := List.mem_flatMap.mp ho
    split at ho
    . rw [List.mem_append] at ho
      rcases ho with ho | ho
      . obtain ⟨name, _, ho⟩ := List.mem_flatMap.mp ho
        rw [List.mem_singleton.mp ho]
        trivial
      . unfold factoryRegistrationOutline at ho
        split at ho
        . rw [List.mem_singleton.mp ho]
          trivial
        . simp at ho
    . simp at ho
  have hmethod : ∀ child, ∀ o ∈ classMethodOutline child, o.label.kind.IsClassMember := by
    intro child o ho
    unfold classMethodOutline at ho
    dsimp only at ho
    split at ho
    . rw [List.mem_singleton.mp ho]
      trivial
    . simp at ho
  have hitems : ∀ children, ∀ o ∈ classItemsOutline children, o.label.kind.IsClassMember := by
    intro children
    induction children with
    | nil => simp [classItemsOutline]
    | cons child rest ih =>
      rw [classItemsOutline, List.forall_mem_append]
      refine ⟨?_, ih⟩
      split
      . exact hproperty child
      . exact hmethod child
      . exact fun o ho => NodeKind.isClassMember_of_isClass (hclass child o ho)
      . simp
  have hbody : ∀ children, ∀ o ∈ classBodyOutline children, o.label.kind.IsClassMember := by
    intro children
    induction children with
    | nil => simp [classBodyOutline]
    | cons child rest ih =>
      rw [classBodyOutline, List.forall_mem_append]
      refine ⟨?_, ih⟩
      split
      . cases child
        exact hitems _
      . simp
  refine ⟨hclass node o (by simp [h]), ?_⟩
  cases node
  rw [classOutline] at h
  split at h
  . contradiction
  . obtain rfl := Option.some.inj h
    exact hbody _

theorem regular_topItems (child : Cst) : ∀ item ∈ topItems child, item.Regular := by
  have hdeclared : ∀ os : List Outline, PlainFitAll os → (∀ o ∈ os, o.label.kind.IsTopLevel) →
      ∀ item ∈ os.map TopItem.declared, item.Regular := by
    intro os hfit hkind item hitem
    obtain ⟨o, ho, rfl⟩ := List.mem_map.mp hitem
    refine ⟨?_, ?_, by simp⟩
    . intro d hd
      exact hfit.hangsBy d (Rose.labels_subset_labelsAll ho hd)
    . intro o' heq
      exact TopItem.declared.inj heq ▸ hkind o ho
  unfold topItems
  split
  . intro item hitem
    rw [List.mem_singleton] at hitem
    subst hitem
    refine ⟨?_, by simp, by simp⟩
    rw [TopItem.outline, Rose.labels, List.forall_mem_cons]
    exact ⟨rfl, (fitAll_moduleItemsOutline child).hangsBy⟩
  . apply hdeclared _ (plainFitAll_namedOutline .configBlock child (fun _ => rfl) fun _ => rfl)
    simp only [namedOutline]
    split <;> simp [leaf, Rose.label, NodeKind.IsTopLevel]
  . apply hdeclared _ (plainFitAll_bindOutline child)
    simp only [bindOutline]
    split <;> simp [leaf, Rose.label, NodeKind.IsTopLevel]
  . apply hdeclared _ (plainFitAll_packageOutline child)
    simp only [packageOutline]
    split <;> simp [Rose.label, NodeKind.IsTopLevel]
  . apply hdeclared _ (plainFitAll_interfaceOutline child)
    simp only [interfaceOutline]
    split <;> simp [Rose.label, NodeKind.IsTopLevel]
  . intro item hitem
    obtain ⟨o, ho, rfl⟩ := List.mem_map.mp hitem
    have houtline := Option.mem_toList.mp ho
    refine ⟨?_, by simp, ?_⟩
    . have hfit := (fitAll_classOutline child).hangsBy
      rw [houtline, Option.toList_some, Rose.labelsAll_cons, Rose.labelsAll_nil, List.append_nil]
        at hfit
      exact hfit
    . intro o' heq
      exact TopItem.class.inj heq ▸ isClassMember_classOutline houtline
  . simp

theorem regular_fileOutline (tree : Cst) : ∀ item ∈ (fileOutline tree).items, item.Regular := by
  intro item hitem
  obtain ⟨child, _, hitem⟩ := List.mem_flatMap.mp hitem
  exact regular_topItems child item hitem

end GraphExtractor
end HdlGraph
