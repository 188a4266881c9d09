import HdlGraph.Parse.Extractor.Numbering

/-!
This module contains the shape of what `extract` returns: for which syntax trees the nodes and edges
are a tree below the node of the file.
-/

namespace HdlGraph

open scoped List

structure IsTree (rootId : NodeId) (nodes : List GraphNode) (edges : List Edge) : Prop where
  root : ∃ root ∈ nodes, root.id = rootId ∧ root.kind = .sourceFile
  nodup : (nodes.map GraphNode.id).Nodup
  endpoints : ∀ e ∈ edges, e.source ∈ nodes.map GraphNode.id ∧ e.target ∈ nodes.map GraphNode.id
  parent : ∀ id ∈ nodes.map GraphNode.id, id ≠ rootId → edges.countP (·.target = id) = 1
  top : ∀ e ∈ edges, e.target ≠ rootId
  reachable : ∀ id ∈ nodes.map GraphNode.id,
    Relation.ReflTransGen (fun source target => ∃ e ∈ edges, e.source = source ∧ e.target = target)
      rootId id

theorem reachable_of_parents {rootId : NodeId} {ids : List NodeId} {edges : List Edge}
    (hlt : ∀ e ∈ edges, e.source < e.target) (hsource : ∀ e ∈ edges, e.source ∈ ids)
    (hparent : ∀ id ∈ ids, id ≠ rootId → ∃ e ∈ edges, e.target = id) (id : NodeId) (hid : id ∈ ids)
    : Relation.ReflTransGen (fun source target => ∃ e ∈ edges, e.source = source
        ∧ e.target = target) rootId id := by
  induction id using Nat.strong_induction_on with
  | _ id ih =>
    by_cases hroot : id = rootId
    . subst hroot
      exact .refl
    . have ⟨e, he, htarget⟩ := hparent id hid hroot
      have hsmaller : e.source < id := htarget ▸ hlt e he
      exact (ih e.source hsmaller (hsource e he)).tail ⟨e, he, rfl, htarget⟩

namespace TopItem

open ExtractM

/--
An item keeps a file a tree unless it is a class, which gets two edges from the file, or a module
without a name, whose items hang under an id that has no node.
-/
def Rooted : TopItem → Prop
  | declared _ => True
  | module name _ items => name ≠ [] ∨ items = []
  | .class _ => False

theorem targets_of_rooted {item : TopItem} (h : item.Rooted) (root b : NodeId)
    : (item.edgesAt root b).map Edge.target ~ (item.nodesAt root b).map NamedNode.id := by
  cases item with
  | declared o => rw [edgesAt, nodesAt, map_target_edgesOf, map_id_nodesOf]
  | module name pos items =>
    rw [edgesAt, nodesAt, List.map_append, List.map_append, map_target_edgesOf, map_id_nodesOf]
    split <;> exact .refl _
  | «class» o => exact absurd h id

theorem source_of_rooted {item : TopItem} (h : item.Rooted) {root b : NodeId} {e : Edge}
    (he : e ∈ item.edgesAt root b)
    : e.source = root ∨ e.source ∈ (item.nodesAt root b).map NamedNode.id := by
  cases item with
  | declared o =>
    rw [edgesAt] at he
    obtain ⟨x, hx, heq⟩ := List.mem_map.mp he
    have hids := Rose.map_id_place root b o
    have hid : x.id ∈ List.range' b o.size := hids ▸ List.mem_map_of_mem hx
    rw [nodesAt, map_id_nodesOf, hids, List.mem_range'_1, ← heq]
    rw [List.mem_range'_1] at hid
    cases Rose.parent_place hx <;> grind
  | module name pos items =>
    cases h with
    | inl hname =>
      rw [edgesAt, if_neg hname, List.mem_append, List.mem_singleton] at he
      cases he with
      | inl he =>
        have := mem_edgesOf_placeAll (Nat.lt_succ_self b) he
        rw [nodesAt, List.map_append, map_id_nodesOf, Rose.map_id_placeAll, if_neg hname,
          List.mem_append, List.mem_range'_1, List.map_singleton, List.mem_singleton]
        change _ ∨ _ ∨ e.source = b
        grind
      | inr heq =>
        rw [heq]
        exact Or.inl rfl
    | inr hitems =>
      subst hitems
      rw [edgesAt, Rose.placeAll_nil] at he
      split at he
      . simp [edgesOf] at he
      . rw [show edgesOf [] = [] from rfl, List.nil_append, List.mem_singleton] at he
        rw [he]
        exact Or.inl rfl
  | «class» o => exact absurd h id

theorem targetsAll_of_rooted {items : List TopItem} (h : ∀ item ∈ items, item.Rooted)
    (root b : NodeId)
    : (edgesAllAt root b items).map Edge.target ~ (nodesAllAt root b items).map NamedNode.id := by
  induction items generalizing b with
  | nil => exact .refl _
  | cons item items ih =>
    rw [edgesAllAt, nodesAllAt, List.map_append, List.map_append]
    exact (targets_of_rooted (h item List.mem_cons_self) root b).append
      (ih (fun item' hitem => h item' (List.mem_cons_of_mem _ hitem)) (b + item.size))

theorem sourceAll_of_rooted {items : List TopItem} (h : ∀ item ∈ items, item.Rooted)
    {root b : NodeId} {e : Edge} (he : e ∈ edgesAllAt root b items)
    : e.source = root ∨ e.source ∈ (nodesAllAt root b items).map NamedNode.id := by
  induction items generalizing b with
  | nil => simp [edgesAllAt] at he
  | cons item items ih =>
    rw [edgesAllAt, List.mem_append] at he
    rw [nodesAllAt, List.map_append, List.mem_append]
    cases he with
    | inl he =>
      have := source_of_rooted (h item List.mem_cons_self) he
      grind
    | inr he =>
      have := ih (fun item' hitem => h item' (List.mem_cons_of_mem _ hitem)) he
      grind

theorem two_le_count_class (o : Outline) (root b : NodeId)
    : 2 ≤ ((TopItem.class o).edgesAt root b).countP (·.target = b) := by
  cases o with
  | node d children =>
    simp [edgesAt, Rose.place, edgesOf]

theorem source_of_nameless (o : Outline) (os : List Outline) (pos : Position) (root b : NodeId)
    : ∃ e ∈ (TopItem.module [] pos (o :: os)).edgesAt root b, e.source = b := by
  cases o with
  | node d children =>
    refine ⟨⟨b, b + 1, d.edge⟩, ?_, rfl⟩
    simp [edgesAt, Rose.place, edgesOf]

theorem id_ne_of_nameless {items : List Outline} {pos : Position} {root b : NodeId} {id : NodeId}
    (hid : id ∈ ((TopItem.module [] pos items).nodesAt root b).map NamedNode.id)
    : id ≠ b := by
  rw [nodesAt, if_pos rfl, List.append_nil, map_id_nodesOf, Rose.map_id_placeAll, List.mem_range'_1]
    at hid
  grind

end TopItem

namespace FileOutline

open TopItem

theorem nodesAt_split (b : NodeId) {file : FileOutline} {before after : List TopItem}
    {item : TopItem} (h : file.items = before ++ item :: after)
    : file.nodesAt b
        =
      file.rootNode b :: (nodesAllAt b (b + 1) before
        ++ (item.nodesAt b (b + 1 + sizeAll before)
        ++ nodesAllAt b (b + 1 + sizeAll before + item.size) after)) := by
  rw [nodesAt, h, nodesAllAt_append, nodesAllAt]

theorem edgesAt_split (b : NodeId) {file : FileOutline} {before after : List TopItem}
    {item : TopItem} (h : file.items = before ++ item :: after)
    : file.edgesAt b
        =
      edgesAllAt b (b + 1) before
        ++ (item.edgesAt b (b + 1 + sizeAll before)
        ++ edgesAllAt b (b + 1 + sizeAll before + item.size) after) := by
  rw [edgesAt, h, edgesAllAt_append, edgesAllAt]

theorem id_ne_of_nameless {b : NodeId} {file : FileOutline} {before after : List TopItem}
    {pos : Position} {items : List Outline}
    (h : file.items = before ++ .module [] pos items :: after) {id : NodeId}
    (hid : id ∈ (file.nodesAt b).map NamedNode.id)
    : id ≠ b + 1 + sizeAll before := by
  have hbefore := (ids_nodesAllAt b (b + 1) before).subset
  have hafter :=
    (ids_nodesAllAt b (b + 1 + sizeAll before + (TopItem.module [] pos items).size) after).subset
  rw [nodesAt_split b h, List.map_cons, List.map_append, List.map_append, List.mem_cons,
    List.mem_append, List.mem_append] at hid
  have hpos := (TopItem.module [] pos items).outline.size_pos
  change 0 < (TopItem.module [] pos items).size at hpos
  rcases hid with hid | hid | hid | hid
  . change id = b at hid
    grind
  . have := List.mem_range'_1.mp (hbefore hid)
    grind
  . exact TopItem.id_ne_of_nameless hid
  . have := List.mem_range'_1.mp (hafter hid)
    grind

end FileOutline

namespace GraphExtractor

def RootedChild (child : Cst) : Prop :=
  match child.kind with
  | .classDeclaration => child.fieldText .name = []
  | .moduleDeclaration => moduleName child ≠ [] ∨ moduleItemsOutline child = []
  | _ => True

theorem classOutline_eq_none_iff (node : Cst) : classOutline node = none
    ↔ node.fieldText .name = [] := by
  cases node with
  | node kind fields text pos children =>
    simp only [classOutline]
    split <;> simp_all

theorem rooted_topItems_iff (child : Cst) : (∀ item ∈ topItems child, item.Rooted)
    ↔ RootedChild child := by
  have hdeclared : ∀ os : List Outline, ∀ item ∈ os.map TopItem.declared, item.Rooted := by
    intro os item hitem
    have ⟨o, _, heq⟩ := List.mem_map.mp hitem
    rw [← heq]
    trivial
  have hclass : (∀ item ∈ (classOutline child).toList.map TopItem.class, item.Rooted)
      ↔ child.fieldText .name = [] := by
    rw [← classOutline_eq_none_iff]
    cases classOutline child with
    | none => simp
    | some o => simp [TopItem.Rooted]
  unfold topItems RootedChild
  generalize child.kind = kind
  split
  . simp [TopItem.Rooted]
  . simpa only [iff_true] using hdeclared _
  . simpa only [iff_true] using hdeclared _
  . simpa only [iff_true] using hdeclared _
  . simpa only [iff_true] using hdeclared _
  . exact hclass
  . simp_all

theorem rooted_fileOutline_iff (tree : Cst)
    : (∀ item ∈ (fileOutline tree).items, item.Rooted)
        ↔ ∀ child ∈ tree.children, RootedChild child := by
  simp only [fileOutline, List.mem_flatMap, ← rooted_topItems_iff]
  grind

theorem exists_root (ex : GraphExtractor) (tree : Cst) (fileId : Nat)
    : ∃ root ∈ (ex.extract tree fileId).1.1, root.id = ex.nextId ∧ root.kind = .sourceFile := by
  have h := (extract_extracts ex tree fileId).nodes
  generalize (ex.extract tree fileId).1.1 = nodes at *
  cases nodes with
  | nil => simp [FileOutline.nodesAt] at h
  | cons root nodes =>
    rw [FileOutline.nodesAt, List.map_cons, List.map_cons, List.cons.injEq] at h
    obtain ⟨kind, hkind, heq⟩ := Option.map_eq_some_iff.mp h.1
    have hid : root.id = ex.nextId := congrArg NamedNode.id heq
    have hfile : kind = .sourceFile := congrArg NamedNode.kind heq
    subst hfile
    exact ⟨root, List.mem_cons_self, hid, NodeKind.eq_sourceFile_of_resolve hkind⟩

theorem isTree_of_rooted {ex : GraphExtractor} {tree : Cst} {fileId : Nat}
    (h : ∀ item ∈ (fileOutline tree).items, item.Rooted)
    : IsTree ex.nextId (ex.extract tree fileId).1.1 (ex.extract tree fileId).1.2 := by
  have hextract := extract_extracts ex tree fileId
  have hids := hextract.map_id
  have hnodup := (fileOutline tree).ids_nodup ex.nextId
  have htargets := TopItem.targetsAll_of_rooted h ex.nextId (ex.nextId + 1)
  have hsource : ∀ e ∈ (fileOutline tree).edgesAt ex.nextId,
      e.source ∈ ((fileOutline tree).nodesAt ex.nextId).map NamedNode.id := by
    intro e he
    rw [FileOutline.nodesAt, List.map_cons, List.mem_cons]
    exact TopItem.sourceAll_of_rooted h he
  have hcount : ∀ id ∈ ((fileOutline tree).nodesAt ex.nextId).map NamedNode.id, id ≠ ex.nextId →
      ((fileOutline tree).edgesAt ex.nextId).countP (·.target = id) = 1 := by
    intro id hid hne
    rw [FileOutline.nodesAt, List.map_cons, List.nodup_cons] at hnodup
    rw [FileOutline.nodesAt, List.map_cons, List.mem_cons] at hid
    have hcount := List.count_eq_one_of_mem hnodup.2 (hid.resolve_left hne)
    rw [← htargets.count_eq, List.count, List.countP_map] at hcount
    simpa [FileOutline.edgesAt, Function.comp_def, beq_eq_decide] using hcount
  rw [hextract.edges]
  exact {
    root := exists_root ex tree fileId
    nodup := hids ▸ hnodup
    endpoints := by
      intro e he
      rw [hids]
      refine ⟨hsource e he, ?_⟩
      rw [FileOutline.nodesAt, List.map_cons, List.mem_cons, ← htargets.mem_iff]
      exact Or.inr (List.mem_map_of_mem he)
    parent := hids ▸ hcount
    top := by
      intro e he
      have := FileOutline.mem_edgesAt he
      grind
    reachable := by
      rw [hids]
      apply reachable_of_parents
      . intro e he
        exact (FileOutline.mem_edgesAt he).2.1
      . exact hsource
      . intro id hid hne
        have hpos : 0 < ((fileOutline tree).edgesAt ex.nextId).countP (·.target = id) := by
          rw [hcount id hid hne]
          exact Nat.one_pos
        simpa using List.countP_pos_iff.mp hpos
  }

theorem rooted_of_isTree {ex : GraphExtractor} {tree : Cst} {fileId : Nat} {rootId : NodeId}
    (h : IsTree rootId (ex.extract tree fileId).1.1 (ex.extract tree fileId).1.2)
    : ∀ item ∈ (fileOutline tree).items, item.Rooted := by
  intro item hitem
  have hextract := extract_extracts ex tree fileId
  have hids := hextract.map_id
  have ⟨before, after, hsplit⟩ := List.append_of_mem hitem
  have hedges := hextract.edges
  rw [FileOutline.edgesAt_split _ hsplit] at hedges
  cases item with
  | declared o => trivial
  | module name pos items =>
    by_contra hnot
    simp only [TopItem.Rooted, not_or, ne_eq, not_not] at hnot
    have ⟨hname, hitems⟩ := hnot
    subst hname
    have ⟨o, os, hcons⟩ := List.exists_cons_of_ne_nil hitems
    subst hcons
    have ⟨e, he, hsource⟩ :=
      TopItem.source_of_nameless o os pos ex.nextId (ex.nextId + 1 + TopItem.sizeAll before)
    have hend := (h.endpoints e (by rw [hedges]; simp [he])).1
    rw [hids] at hend
    exact FileOutline.id_ne_of_nameless hsplit hend hsource
  | «class» o =>
    have htwo := TopItem.two_le_count_class o ex.nextId (ex.nextId + 1 + TopItem.sizeAll before)
    generalize ex.nextId + 1 + TopItem.sizeAll before = id at *
    have hcount : 2 ≤ (ex.extract tree fileId).1.2.countP (·.target = id) := by
      rw [hedges, List.countP_append, List.countP_append]
      omega
    have ⟨e, he, htarget⟩ := List.countP_pos_iff.mp (Nat.lt_of_lt_of_le Nat.two_pos hcount)
    rw [decide_eq_true_eq] at htarget
    have hone := h.parent id (htarget ▸ (h.endpoints e he).2) (htarget ▸ h.top e he)
    omega

/--
`extract` yields a tree exactly if no class with a name stands at the top of the file and every
module there has a name in its header or declares nothing.
-/
theorem extract_isTree_iff (ex : GraphExtractor) (tree : Cst) (fileId : Nat)
    : (∃ rootId, IsTree rootId (ex.extract tree fileId).1.1 (ex.extract tree fileId).1.2)
        ↔
      ∀ child ∈ tree.children, RootedChild child := by
  rw [← rooted_fileOutline_iff]
  constructor
  . intro ⟨_, h⟩
    exact rooted_of_isTree h
  . intro h
    exact ⟨ex.nextId, isTree_of_rooted h⟩

def emptyClass : Cst :=
  .node .classDeclaration [] "class c; endclass".toList ⟨0, 0⟩ [
    .node .simpleIdentifier [.name] "c".toList ⟨0, 6⟩ []]

-- Both `extract_class` and `extract` push the edge from a file to its class
theorem extract_emptyClass_not_isTree
    : ¬∃ rootId, IsTree rootId
        (GraphExtractor.new.extract (.node .other [] emptyClass.text ⟨0, 0⟩ [emptyClass]) 0).1.1
        (GraphExtractor.new.extract (.node .other [] emptyClass.text ⟨0, 0⟩ [emptyClass])
          0).1.2 := by
  intro ⟨_, h⟩
  have hrooted := (rooted_fileOutline_iff _).mp (rooted_of_isTree h)
  have hname : emptyClass.fieldText .name = [] := hrooted emptyClass (List.mem_singleton.mpr rfl)
  exact absurd hname (by decide)

end GraphExtractor
end HdlGraph
