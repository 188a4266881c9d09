import Mathlib.Algebra.Order.BigOperators.Group.List
import Mathlib.Algebra.Order.Ring.Nat
import HdlGraph.Parse.Extractor.Defined

/-!
This module contains which class declarations of a file get a node. Classes are looked for in four
places: at the top of the file, in modules, in the `module_item`s of modules and in the
`class_item`s of classes. A class that stands anywhere else is lost, and so is everything in a class
without a name.
-/

namespace HdlGraph

/-! ## Class declarations in syntax trees -/

namespace Cst

mutual

def classDeclarations : Cst → List Cst
  | .node kind fields text pos children =>
    (if kind = .classDeclaration then [.node kind fields text pos children] else [])
    ++ classDeclarationsIn children

def classDeclarationsIn : List Cst → List Cst
  | [] => []
  | child :: rest => classDeclarations child ++ classDeclarationsIn rest

end

def classesAt (pos : Position) (node : Cst) : Nat := node.classDeclarations.countP (·.pos = pos)

def classesIn (pos : Position) (children : List Cst) : Nat := (children.map (classesAt pos)).sum

theorem countP_classDeclarationsIn (pos : Position) (children : List Cst)
    : (classDeclarationsIn children).countP (·.pos = pos) = classesIn pos children := by
  induction children with
  | nil => rfl
  | cons child rest ih =>
    rw [classDeclarationsIn, List.countP_append, ih]
    rfl

@[simp]
theorem classesIn_nil (pos : Position) : classesIn pos [] = 0 := rfl

@[simp]
theorem classesIn_cons (pos : Position) (child : Cst) (rest : List Cst)
    : classesIn pos (child :: rest) = classesAt pos child + classesIn pos rest := by
  rw [classesIn, List.map_cons, List.sum_cons, classesIn]

theorem classesAt_node (pos : Position) (node : Cst)
    : classesAt pos node
        =
      (if node.kind = .classDeclaration ∧ node.pos = pos then 1 else 0)
      + classesIn pos node.children := by
  cases node with
  | node kind fields text p children =>
    rw [classesAt, classDeclarations, List.countP_append, countP_classDeclarationsIn]
    congr 1
    simp only [Cst.kind, Cst.pos]
    by_cases hkind : kind = .classDeclaration
    . by_cases hpos : p = pos <;> simp [hkind, hpos]
    . simp [hkind]

theorem classesIn_le (pos : Position) (node : Cst)
    : classesIn pos node.children ≤ classesAt pos node := by
  rw [classesAt_node]
  apply Nat.le_add_left

theorem classesAt_le_of_mem (pos : Position) {child : Cst} {children : List Cst}
    (h : child ∈ children)
    : classesAt pos child ≤ classesIn pos children :=
  List.single_le_sum (fun _ _ => Nat.zero_le _) _ (List.mem_map_of_mem h)

end Cst

namespace Outline

def classesAt (pos : Position) (os : List Outline) : Nat :=
  (Rose.labelsAll os).countP fun d => d.kind.isClass && d.pos = pos

@[simp]
theorem classesAt_nil (pos : Position) : classesAt pos [] = 0 := by simp [classesAt]

theorem classesAt_append (pos : Position) (os os' : List Outline)
    : classesAt pos (os ++ os') = classesAt pos os + classesAt pos os' := by
  rw [classesAt, Rose.labelsAll_append, List.countP_append]
  rfl

theorem classesAt_node (pos : Position) (d : Declared) (children : List Outline)
    : classesAt pos [.node d children]
        =
      (if d.kind.isClass && d.pos = pos then 1 else 0) + classesAt pos children := by
  simp [classesAt, Rose.labels, List.countP_cons, Nat.add_comm]

theorem PlainAll.classesAt_eq_zero {os : List Outline} (h : PlainAll os) (pos : Position)
    : classesAt pos os = 0 := by
  rw [classesAt, List.countP_eq_zero]
  intro d hd
  simp [h.isClass d hd]

theorem classesAt_flatMap {α : Type} (pos : Position) (xs : List α) (f : α → List Outline)
    : classesAt pos (xs.flatMap f) = (xs.map fun x => classesAt pos (f x)).sum := by
  rw [classesAt, Rose.labelsAll_flatMap, List.countP_flatMap]
  rfl

section Children

variable {pos : Position} {f : Cst → List Outline} {children : List Cst}

theorem classesAt_flatMap_le (h : ∀ child ∈ children, classesAt pos (f child) ≤ child.classesAt pos)
    : classesAt pos (children.flatMap f) ≤ Cst.classesIn pos children := by
  rw [classesAt_flatMap]
  exact List.sum_le_sum h

theorem classesAt_flatMap_lt (h : ∀ child ∈ children, classesAt pos (f child) ≤ child.classesAt pos)
    (hshort : ∃ child ∈ children, classesAt pos (f child) < child.classesAt pos)
    : classesAt pos (children.flatMap f) < Cst.classesIn pos children := by
  rw [classesAt_flatMap]
  exact List.sum_lt_sum _ _ h hshort

end Children
end Outline

namespace TopItem

@[simp]
theorem map_outline_declared (os : List Outline) : (os.map declared).map outline = os := by
  simp [Function.comp_def, outline]

@[simp]
theorem map_outline_class (os : List Outline) : (os.map TopItem.class).map outline = os := by
  simp [Function.comp_def, outline]

end TopItem

/-! ## No class twice -/

namespace GraphExtractor

open Outline

def classMemberOutline (child : Cst) : List Outline :=
  match child.kind with
  | .classProperty => classPropertyOutline child
  | .classMethod => classMethodOutline child
  | .classDeclaration => (classOutline child).toList
  | _ => []

theorem classItemsOutline_eq (children : List Cst)
    : classItemsOutline children = children.flatMap classMemberOutline := by
  induction children with
  | nil => rw [classItemsOutline, List.flatMap_nil]
  | cons child rest ih =>
    rw [classItemsOutline, List.flatMap_cons, ih]
    rfl

theorem classBodyOutline_eq (children : List Cst)
    : classBodyOutline children
        =
      children.flatMap fun item =>
        if item.kind = .classItem then item.children.flatMap classMemberOutline else [] := by
  induction children with
  | nil => rw [classBodyOutline, List.flatMap_nil]
  | cons item rest ih =>
    cases item
    rw [classBodyOutline, List.flatMap_cons, ih, classItemOutline, classItemsOutline_eq]
    rfl

-- How a class body, a module or a `module_item` treats a child: it extracts classes, and nothing
-- else yields a class
structure Collects (f : Cst → List Outline) (child : Cst) : Prop where
  ofClass : child.kind = .classDeclaration → f child = (classOutline child).toList
  ofOther : child.kind ≠ .classDeclaration → PlainAll (f child)

theorem collects_classMemberOutline (child : Cst) : Collects classMemberOutline child where
  ofClass hkind := by simp only [classMemberOutline, hkind]
  ofOther hkind := by
    unfold classMemberOutline
    split
    . exact (plainFitAll_classPropertyOutline child).toPlainAll
    . exact (plainFitAll_classMethodOutline child).toPlainAll
    . next hclass => exact absurd hclass hkind
    . exact plainFitAll_nil.toPlainAll

theorem collects_moduleBodyChildOutline (child : Cst) : Collects moduleBodyChildOutline child where
  ofClass hkind := by simp only [moduleBodyChildOutline, hkind]
  ofOther := fun hkind => (plainFitAll_moduleBodyChildOutline hkind).toPlainAll

theorem collects_moduleChildOutline {child : Cst} (hitem : child.kind ≠ .moduleItem)
    : Collects moduleChildOutline child where
  ofClass hkind := by simp only [moduleChildOutline, hkind]
  ofOther := fun hkind => (plainFitAll_moduleChildOutline hitem hkind).toPlainAll

section Bounds

variable (pos : Position)

theorem classesAt_wrapper_le {f : Cst → List Outline} (item : Cst) (kind : SyntaxKind)
    (h : ∀ child ∈ item.children, classesAt pos (f child) ≤ child.classesAt pos)
    : classesAt pos (if item.kind = kind then item.children.flatMap f else [])
        ≤ item.classesAt pos := by
  split
  . exact (classesAt_flatMap_le h).trans (item.classesIn_le pos)
  . simp

mutual

theorem classesAt_classOutline_le
    : (node : Cst) → node.kind = .classDeclaration →
        classesAt pos (classOutline node).toList ≤ node.classesAt pos
  | .node kind fields text p children, hkind => by
    have hbody := classesAt_classBodyOutline_le children
    rw [classOutline, Cst.classesAt_node]
    simp only [Cst.kind] at hkind
    split
    . simp
    . rw [Option.toList_some, Outline.classesAt_node]
      simpa [NodeKind.isClass, hkind, Cst.kind, Cst.pos, Cst.children] using hbody

theorem classesAt_classBodyOutline_le
    : (children : List Cst) → classesAt pos (classBodyOutline children) ≤ Cst.classesIn pos children
  | [] => by simp [classBodyOutline]
  | item :: rest => by
    have hrest := classesAt_classBodyOutline_le rest
    have hitem := classesAt_classItemOutline_le item
    rw [classBodyOutline, Outline.classesAt_append, Cst.classesIn_cons]
    split
    . exact Nat.add_le_add hitem hrest
    . simp only [classesAt_nil]
      omega

theorem classesAt_classItemOutline_le
    : (node : Cst) → classesAt pos (classItemOutline node) ≤ node.classesAt pos
  | .node kind fields text p children => by
    rw [classItemOutline]
    exact (classesAt_classItemsOutline_le children).trans
      (Cst.classesIn_le pos (.node kind fields text p children))

theorem classesAt_classItemsOutline_le
    : (children : List Cst) →
        classesAt pos (classItemsOutline children) ≤ Cst.classesIn pos children
  | [] => by simp [classItemsOutline]
  | child :: rest => by
    have hrest := classesAt_classItemsOutline_le rest
    rw [classItemsOutline, Outline.classesAt_append, Cst.classesIn_cons]
    refine Nat.add_le_add ?_ hrest
    split
    . simp [(plainFitAll_classPropertyOutline child).toPlainAll.classesAt_eq_zero]
    . simp [(plainFitAll_classMethodOutline child).toPlainAll.classesAt_eq_zero]
    . next hkind => exact classesAt_classOutline_le child hkind
    . simp

end

variable {pos}

theorem Collects.classesAt_le {f : Cst → List Outline} {child : Cst} (h : Collects f child)
    : classesAt pos (f child) ≤ child.classesAt pos := by
  by_cases hkind : child.kind = .classDeclaration
  . rw [h.ofClass hkind]
    exact classesAt_classOutline_le pos child hkind
  . rw [(h.ofOther hkind).classesAt_eq_zero]
    apply Nat.zero_le

theorem classesAt_moduleChildOutline_le (child : Cst)
    : classesAt pos (moduleChildOutline child) ≤ child.classesAt pos := by
  by_cases hitem : child.kind = .moduleItem
  . simp only [moduleChildOutline, hitem]
    refine (classesAt_flatMap_le ?_).trans (child.classesIn_le pos)
    exact fun child _ => (collects_moduleBodyChildOutline child).classesAt_le
  . exact (collects_moduleChildOutline hitem).classesAt_le

theorem classesAt_topItems_le (child : Cst)
    : classesAt pos ((topItems child).map TopItem.outline) ≤ child.classesAt pos := by
  have hdeclared : ∀ os : List Outline, PlainAll os →
      classesAt pos ((os.map TopItem.declared).map TopItem.outline) ≤ child.classesAt pos := by
    intro os hos
    rw [TopItem.map_outline_declared, hos.classesAt_eq_zero]
    apply Nat.zero_le
  unfold topItems
  split
  . rw [List.map_singleton, TopItem.outline, Outline.classesAt_node]
    simp only [NodeKind.isClass, Bool.false_and, Bool.false_eq_true, ↓reduceIte, Nat.zero_add]
    refine (classesAt_flatMap_le ?_).trans (child.classesIn_le pos)
    exact fun child _ => classesAt_moduleChildOutline_le child
  . exact hdeclared _ (plainFitAll_namedOutline .configBlock child (fun _ => rfl) fun _ =>
      rfl).toPlainAll
  . exact hdeclared _ (plainFitAll_bindOutline child).toPlainAll
  . exact hdeclared _ (plainFitAll_packageOutline child).toPlainAll
  . exact hdeclared _ (plainFitAll_interfaceOutline child).toPlainAll
  . next hkind =>
    rw [TopItem.map_outline_class]
    exact classesAt_classOutline_le pos child hkind
  . simp

end Bounds

/-! ## Classes by where they stand -/

def NamedClass (node : Cst) : Prop := node.kind = .classDeclaration ∧ node.fieldText .name ≠ []

def IsBehind (wrapper : SyntaxKind) (container member : Cst) : Prop :=
  ∃ item ∈ container.children, item.kind = wrapper ∧ member ∈ item.children

def Member (container member : Cst) : Prop :=
  match container.kind with
  | .packageDeclaration => IsBehind .packageItem container member
  | .moduleDeclaration =>
    moduleName container ≠ []
      ∧ (member ∈ container.children ∨ IsBehind .moduleItem container member)
  | .classDeclaration => IsBehind .classItem container member
  | _ => False

/--
`cls` is a class declaration with a name in a file, and `containers` are the declarations around it
from the file inwards. No other class declaration of the file starts where it does.
-/
structure StandsIn (tree : Cst) (containers : List Cst) (cls : Cst) : Prop where
  kind : cls.kind = .classDeclaration
  name : cls.fieldText .name ≠ []
  top : ∀ outermost ∈ (containers ++ [cls]).head?, outermost ∈ tree.children
  nested : (containers ++ [cls]).IsChain Member
  alone : tree.classesAt cls.pos = 1

def IsSearched : List Cst → Prop
  | [] => True
  | outermost :: inner =>
    (outermost.kind = .moduleDeclaration ∨ NamedClass outermost) ∧ ∀ c ∈ inner, NamedClass c

theorem Member.kind {container member : Cst} (h : Member container member)
    : container.kind = .packageDeclaration ∨ container.kind = .moduleDeclaration
        ∨ container.kind = .classDeclaration := by
  unfold Member at h
  split at h <;> simp_all

theorem IsBehind.classesAt_le {wrapper : SyntaxKind} {container member : Cst}
    (h : IsBehind wrapper container member) (pos : Position)
    : member.classesAt pos ≤ Cst.classesIn pos container.children := by
  obtain ⟨item, hitem, _, hmember⟩ := h
  calc
    member.classesAt pos ≤ Cst.classesIn pos item.children := Cst.classesAt_le_of_mem pos hmember
    _ ≤ item.classesAt pos := item.classesIn_le pos
    _ ≤ Cst.classesIn pos container.children := Cst.classesAt_le_of_mem pos hitem

theorem Member.classesAt_le {container member : Cst} (h : Member container member) (pos : Position)
    : member.classesAt pos ≤ container.classesAt pos := by
  have hin : member.classesAt pos ≤ Cst.classesIn pos container.children := by
    unfold Member at h
    split at h
    . exact h.classesAt_le pos
    . cases h.2 with
      | inl hmem => exact Cst.classesAt_le_of_mem pos hmem
      | inr hbehind => exact hbehind.classesAt_le pos
    . exact h.classesAt_le pos
    . exact h.elim
  exact hin.trans (container.classesIn_le pos)

theorem kind_of_chain {containers : List Cst} {c cls : Cst}
    (hchain : (c :: (containers ++ [cls])).IsChain Member)
    : c.kind = .packageDeclaration ∨ c.kind = .moduleDeclaration ∨ c.kind = .classDeclaration := by
  cases containers with
  | nil => exact (List.isChain_cons_cons.mp hchain).1.kind
  | cons d containers => exact (List.isChain_cons_cons.mp hchain).1.kind

theorem classOutline_of_namedClass {c : Cst} (h : NamedClass c)
    : classOutline c
        =
      some (.node ⟨.class (c.fieldText .name) (findParentClass c), .contains, c.pos⟩
        (classBodyOutline c.children)) := by
  cases c
  rw [classOutline, if_neg h.2]
  rfl

/-! ## Lost classes -/

theorem classesAt_lt_of_behind {f g : Cst → List Outline} {wrapper : SyntaxKind}
    {container member : Cst} {pos : Position} (hbehind : IsBehind wrapper container member)
    (hg : ∀ item, classesAt pos (g item) ≤ item.classesAt pos)
    (hwrapper : ∀ item, item.kind = wrapper → g item = item.children.flatMap f)
    (hf : ∀ child, classesAt pos (f child) ≤ child.classesAt pos)
    (hmember : classesAt pos (f member) < member.classesAt pos)
    : classesAt pos (container.children.flatMap g) < Cst.classesIn pos container.children := by
  obtain ⟨item, hitem, hkind, hmem⟩ := hbehind
  refine classesAt_flatMap_lt (fun item _ => hg item) ⟨item, hitem, ?_⟩
  rw [hwrapper item hkind]
  exact (classesAt_flatMap_lt (fun child _ => hf child) ⟨member, hmem, hmember⟩).trans_le
    (item.classesIn_le pos)

section Lost

variable {cls : Cst} (hcls : cls.kind = .classDeclaration)

include hcls

theorem classesAt_pos_of_chain {containers : List Cst} {c : Cst}
    (hchain : (c :: (containers ++ [cls])).IsChain Member)
    : 0 < c.classesAt cls.pos := by
  have hself : 0 < cls.classesAt cls.pos := by
    rw [Cst.classesAt_node, if_pos ⟨hcls, rfl⟩]
    exact Nat.add_pos_left Nat.one_pos _
  induction containers generalizing c with
  | nil =>
    rw [List.nil_append, List.isChain_cons_cons] at hchain
    exact hself.trans_le (hchain.1.classesAt_le cls.pos)
  | cons d containers ih =>
    rw [List.cons_append, List.isChain_cons_cons] at hchain
    exact (ih hchain.2).trans_le (hchain.1.classesAt_le cls.pos)

theorem classesAt_lt_of_not_namedClass {f : Cst → List Outline} {containers : List Cst} {c : Cst}
    (h : Collects f c) (hc : ¬NamedClass c) (hchain : (c :: (containers ++ [cls])).IsChain Member)
    : classesAt cls.pos (f c) < c.classesAt cls.pos := by
  have hzero : classesAt cls.pos (f c) = 0 := by
    by_cases hkind : c.kind = .classDeclaration
    . have hname : c.fieldText .name = [] := by
        by_contra hname
        exact hc ⟨hkind, hname⟩
      rw [h.ofClass hkind, (classOutline_eq_none_iff c).mpr hname]
      simp
    . exact (h.ofOther hkind).classesAt_eq_zero cls.pos
  rw [hzero]
  exact classesAt_pos_of_chain hcls hchain

theorem classesAt_lt_of_lost {f : Cst → List Outline} {containers : List Cst} {c : Cst}
    (h : Collects f c) (hchain : (c :: (containers ++ [cls])).IsChain Member)
    (hlost : ¬∀ c' ∈ c :: containers, NamedClass c')
    : classesAt cls.pos (f c) < c.classesAt cls.pos := by
  induction containers generalizing f c with
  | nil =>
    refine classesAt_lt_of_not_namedClass hcls h ?_ hchain
    simpa using hlost
  | cons d containers ih =>
    by_cases hc : NamedClass c
    . rw [List.cons_append, List.isChain_cons_cons] at hchain
      obtain ⟨hmember, hchain⟩ := hchain
      have hlost : ¬∀ c' ∈ d :: containers, NamedClass c' := by
        intro hall
        exact hlost (List.forall_mem_cons.mpr ⟨hc, hall⟩)
      simp only [Member, hc.1] at hmember
      have hbody : classesAt cls.pos (classBodyOutline c.children)
          < Cst.classesIn cls.pos c.children := by
        rw [classBodyOutline_eq]
        apply classesAt_lt_of_behind hmember
        . intro item
          exact classesAt_wrapper_le _ item .classItem fun child _ =>
            (collects_classMemberOutline child).classesAt_le
        . intro item hitem
          exact if_pos hitem
        . intro child
          exact (collects_classMemberOutline child).classesAt_le
        . exact ih (collects_classMemberOutline d) hchain hlost
      rw [h.ofClass hc.1, classOutline_of_namedClass hc, Option.toList_some, Outline.classesAt_node,
        Cst.classesAt_node]
      simpa only [NodeKind.isClass, hc.1, Bool.true_and, true_and, decide_eq_true_eq,
        Nat.add_lt_add_iff_left] using hbody
    . exact classesAt_lt_of_not_namedClass hcls h hc hchain

theorem classesAt_topItems_lt {containers : List Cst} {outermost : Cst}
    (hchain : (outermost :: (containers ++ [cls])).IsChain Member)
    (hlost : ¬IsSearched (outermost :: containers))
    : classesAt cls.pos ((topItems outermost).map TopItem.outline)
        < outermost.classesAt cls.pos := by
  rcases kind_of_chain hchain with hkind | hkind | hkind
  . have hzero : classesAt cls.pos ((topItems outermost).map TopItem.outline) = 0 := by
      simp only [topItems, hkind, TopItem.map_outline_declared]
      exact (plainFitAll_packageOutline outermost).toPlainAll.classesAt_eq_zero cls.pos
    rw [hzero]
    exact classesAt_pos_of_chain hcls hchain
  . have hlost : ¬∀ c ∈ containers, NamedClass c := fun hall => hlost ⟨Or.inl hkind, hall⟩
    cases containers with
    | nil => simp at hlost
    | cons d containers =>
      rw [List.cons_append, List.isChain_cons_cons] at hchain
      obtain ⟨hmember, hchain⟩ := hchain
      have hd : d.kind ≠ .moduleItem := by
        rcases kind_of_chain hchain with h | h | h <;> simp [h]
      simp only [Member, hkind] at hmember
      have hitems : classesAt cls.pos (moduleItemsOutline outermost)
          < Cst.classesIn cls.pos outermost.children := by
        cases hmember.2 with
        | inl hmem =>
          apply classesAt_flatMap_lt fun child _ => classesAt_moduleChildOutline_le child
          exact ⟨d, hmem, classesAt_lt_of_lost hcls (collects_moduleChildOutline hd) hchain hlost⟩
        | inr hbehind =>
          apply classesAt_lt_of_behind hbehind classesAt_moduleChildOutline_le
          . intro item hitem
            simp only [moduleChildOutline, hitem]
            rfl
          . intro child
            exact (collects_moduleBodyChildOutline child).classesAt_le
          . exact classesAt_lt_of_lost hcls (collects_moduleBodyChildOutline d) hchain hlost
      simp only [topItems, hkind, List.map_singleton, TopItem.outline]
      rw [Outline.classesAt_node]
      simpa [NodeKind.isClass] using hitems.trans_le (outermost.classesIn_le cls.pos)
  . have hlost : ¬∀ c ∈ outermost :: containers, NamedClass c := by
      intro hall
      exact hlost ⟨Or.inr (hall outermost List.mem_cons_self),
        fun c hc => hall c (List.mem_cons_of_mem _ hc)⟩
    have hmember := classesAt_lt_of_lost hcls (collects_classMemberOutline outermost) hchain hlost
    rw [(collects_classMemberOutline outermost).ofClass hkind] at hmember
    simp only [topItems, hkind, TopItem.map_outline_class]
    exact hmember

end Lost
/-! ## The nodes of classes -/

def extendsType (cls : Cst) : Option Text :=
  let clause := cls.children.dropWhile (·.text ≠ "extends".toList)
  (clause.find? fun child => child.text ≠ "extends".toList ∧ child.kind = .classType).map Cst.text

theorem findParentClass_eq (cls : Cst) : findParentClass cls = extendsType cls := by
  have hafter : ∀ children : List Cst,
      findParentClassIn true children
        =
      (children.find? fun child => child.text ≠ "extends".toList ∧ child.kind = .classType).map
      Cst.text := by
    intro children
    induction children with
    | nil => rfl
    | cons child rest ih =>
      rw [findParentClassIn]
      by_cases hextends : child.text = "extends".toList
      . rw [if_pos hextends, ih, List.find?_cons_of_neg]
        simp [hextends]
      . rw [if_neg hextends]
        by_cases hkind : child.kind = .classType
        . rw [if_pos ⟨rfl, hkind⟩, List.find?_cons_of_pos, Option.map_some]
          exact decide_eq_true ⟨hextends, hkind⟩
        . rw [if_neg fun h => hkind h.2, ih, List.find?_cons_of_neg]
          simp [hkind]
  unfold findParentClass extendsType
  dsimp only
  induction cls.children with
  | nil => rfl
  | cons child rest ih =>
    rw [findParentClassIn]
    by_cases hextends : child.text = "extends".toList
    . rw [if_pos hextends, hafter, List.dropWhile_cons_of_neg, List.find?_cons_of_neg]
      . simp [hextends]
      . simp [hextends]
    . rw [if_neg hextends, if_neg fun h => Bool.false_ne_true h.1, List.dropWhile_cons_of_pos, ih]
      exact decide_eq_true hextends

def declaredKind (node : Cst) : Option (NodeKind Text) :=
  match node.kind with
  | .packageDeclaration => some (.package (node.fieldText .name))
  | .moduleDeclaration => some (.module (moduleName node))
  | .classDeclaration => some (.class (node.fieldText .name) (extendsType node))
  | _ => none

def StandsFor (node : NamedNode) (declaration : Cst) : Prop :=
  declaredKind declaration = some node.kind ∧ node.line = declaration.pos.row + 1
    ∧ node.col = declaration.pos.col

def namedNodes (ex : GraphExtractor) (tree : Cst) (fileId : Nat) : List NamedNode :=
  (ex.extract tree fileId).1.1.filterMap (·.named (ex.extract tree fileId).2.symbols)

def classNodesAt (pos : Position) (nodes : List NamedNode) : List NamedNode :=
  nodes.filter fun node => node.kind.isClass && (node.line = pos.row + 1 && node.col = pos.col)

def Leads (nodes : List NamedNode) (edges : List Edge) (source : NodeId) : List Cst → NodeId → Prop
  | [], target => source = target
  | c :: cs, target =>
    ∃ node ∈ nodes, StandsFor node c ∧ ⟨source, node.id, .contains⟩ ∈ edges
      ∧ Leads nodes edges node.id cs target

/--
A class has exactly one node, with its name and the type it extends, and `Contains` edges lead to it
from the node of the file through the nodes of the declarations around it.
-/
def HasNode (nodes : List NamedNode) (edges : List Edge) (rootId : NodeId) (containers : List Cst)
    (cls : Cst) : Prop :=
  ∃ node, classNodesAt cls.pos nodes = [node] ∧ StandsFor node cls
    ∧ Leads nodes edges rootId (containers ++ [cls]) node.id

theorem namedNodes_eq (ex : GraphExtractor) (tree : Cst) (fileId : Nat)
    : namedNodes ex tree fileId = (fileOutline tree).nodesAt ex.nextId := by
  have h := congrArg (List.filterMap id) (extract_extracts ex tree fileId).nodes
  rw [List.filterMap_map, List.filterMap_map, Function.id_comp, Function.id_comp,
    List.filterMap_some] at h
  exact h

theorem standsFor_of_namedClass {c : Cst} (h : NamedClass c) (id : NodeId)
    : StandsFor (Declared.namedNode id ⟨.class (c.fieldText .name) (findParentClass c), .contains,
        c.pos⟩) c := by
  refine ⟨?_, rfl, rfl⟩
  simp only [declaredKind, h.1, findParentClass_eq, Declared.namedNode]

theorem Collects.mem {f : Cst → List Outline} {c : Cst} {o : Outline} (h : Collects f c)
    (hkind : c.kind = .classDeclaration) (ho : classOutline c = some o)
    : o ∈ f c := by
  rw [h.ofClass hkind, ho]
  exact List.mem_singleton_self o

theorem mem_classBodyOutline {c d : Cst} {o : Outline} (h : IsBehind .classItem c d)
    (hkind : d.kind = .classDeclaration) (ho : classOutline d = some o)
    : o ∈ classBodyOutline c.children := by
  obtain ⟨item, hitem, hwrapper, hmem⟩ := h
  rw [classBodyOutline_eq, List.mem_flatMap]
  refine ⟨item, hitem, ?_⟩
  rw [if_pos hwrapper, List.mem_flatMap]
  exact ⟨d, hmem, (collects_classMemberOutline d).mem hkind ho⟩

theorem mem_moduleItemsOutline {c d : Cst} {o : Outline}
    (h : d ∈ c.children ∨ IsBehind .moduleItem c d) (hkind : d.kind = .classDeclaration)
    (ho : classOutline d = some o)
    : o ∈ moduleItemsOutline c := by
  rw [moduleItemsOutline, List.mem_flatMap]
  cases h with
  | inl hmem =>
    refine ⟨d, hmem, (collects_moduleChildOutline ?_).mem hkind ho⟩
    simp [hkind]
  | inr hbehind =>
    obtain ⟨item, hitem, hwrapper, hmem⟩ := hbehind
    refine ⟨item, hitem, ?_⟩
    simp only [moduleChildOutline, hwrapper, moduleBodyOutline, List.mem_flatMap]
    exact ⟨d, hmem, (collects_moduleBodyChildOutline d).mem hkind ho⟩

section Leads

open ExtractM

variable {nodes : List NamedNode} {edges : List Edge}

theorem exists_node_of_placeAll {c : Cst} (hc : NamedClass c) {os : List Outline}
    (hmem : ∀ o, classOutline c = some o → o ∈ os) {p b : NodeId}
    (hnodes : nodesOf (Rose.placeAll p b os) ⊆ nodes)
    (hedges : edgesOf (Rose.placeAll p b os) ⊆ edges)
    : ∃ node ∈ nodes, StandsFor node c ∧ ⟨p, node.id, .contains⟩ ∈ edges
        ∧ nodesOf (Rose.placeAll node.id (node.id + 1) (classBodyOutline c.children)) ⊆ nodes
        ∧ edgesOf (Rose.placeAll node.id (node.id + 1) (classBodyOutline c.children)) ⊆ edges := by
  obtain ⟨b', hsub⟩ := Rose.exists_place_subset (hmem _ (classOutline_of_namedClass hc)) p b
  replace hnodes := List.Subset.trans (List.map_subset _ hsub) hnodes
  replace hedges := List.Subset.trans (List.map_subset _ hsub) hedges
  rw [Rose.place] at hnodes hedges
  obtain ⟨hnode, hbelow⟩ := List.cons_subset.mp hnodes
  obtain ⟨hedge, hbelowEdges⟩ := List.cons_subset.mp hedges
  exact ⟨_, hnode, standsFor_of_namedClass hc b', hedge, hbelow, hbelowEdges⟩

theorem leads_of_placeAll {c cls : Cst} {cs : List Cst} (hchain : (c :: cs).IsChain Member)
    (hlast : (c :: cs).getLast? = some cls) (hall : ∀ c' ∈ c :: cs, NamedClass c')
    {os : List Outline} (hmem : ∀ o, classOutline c = some o → o ∈ os) {p b : NodeId}
    (hnodes : nodesOf (Rose.placeAll p b os) ⊆ nodes)
    (hedges : edgesOf (Rose.placeAll p b os) ⊆ edges)
    : ∃ node ∈ nodes, StandsFor node cls ∧ Leads nodes edges p (c :: cs) node.id := by
  induction cs generalizing c os p b with
  | nil =>
    obtain ⟨node, hnode, hstands, hedge, _⟩ :=
      exists_node_of_placeAll (hall c List.mem_cons_self) hmem hnodes hedges
    rw [List.getLast?_singleton, Option.some.injEq] at hlast
    subst hlast
    exact ⟨node, hnode, hstands, node, hnode, hstands, hedge, rfl⟩
  | cons d cs ih =>
    obtain ⟨node, hnode, hstands, hedge, hbelow, hbelowEdges⟩ :=
      exists_node_of_placeAll (hall c List.mem_cons_self) hmem hnodes hedges
    rw [List.isChain_cons_cons] at hchain
    rw [List.getLast?_cons_cons] at hlast
    have hmember := hchain.1
    simp only [Member, (hall c List.mem_cons_self).1] at hmember
    rw [List.forall_mem_cons] at hall
    have hd := (hall.2 d List.mem_cons_self).1
    obtain ⟨last, hlastMem, hlastStands, hleads⟩ :=
      ih hchain.2 hlast hall.2 (fun o ho => mem_classBodyOutline hmember hd ho) hbelow hbelowEdges
    exact ⟨last, hlastMem, hlastStands, node, hnode, hstands, hedge, hleads⟩

theorem exists_subset_of_topItem {tree c : Cst} (hc : c ∈ tree.children) {item : TopItem}
    (hitem : item ∈ topItems c) (root : NodeId)
    : ∃ b, item.nodesAt root b ⊆ (fileOutline tree).nodesAt root
        ∧ item.edgesAt root b ⊆ (fileOutline tree).edgesAt root := by
  have hmem : item ∈ (fileOutline tree).items := List.mem_flatMap.mpr ⟨c, hc, hitem⟩
  obtain ⟨before, after, hsplit⟩ := List.append_of_mem hmem
  refine ⟨root + 1 + TopItem.sizeAll before, ?_, ?_⟩
  . intro node hnode
    rw [FileOutline.nodesAt_split root hsplit]
    simp [hnode]
  . intro e he
    rw [FileOutline.edgesAt_split root hsplit]
    simp [he]

theorem leads_of_topClass {tree c cls : Cst} {cs : List Cst} (hc : c ∈ tree.children)
    (hchain : (c :: cs).IsChain Member) (hlast : (c :: cs).getLast? = some cls)
    (hall : ∀ c' ∈ c :: cs, NamedClass c') (root : NodeId)
    : ∃ node ∈ (fileOutline tree).nodesAt root, StandsFor node cls
        ∧ Leads ((fileOutline tree).nodesAt root) ((fileOutline tree).edgesAt root) root
          (c :: cs) node.id := by
  have ho := classOutline_of_namedClass (hall c List.mem_cons_self)
  generalize Rose.node _ _ = o at ho
  have hitem : TopItem.class o ∈ topItems c := by simp [topItems, (hall c List.mem_cons_self).1, ho]
  obtain ⟨b, hnodes, hedges⟩ := exists_subset_of_topItem hc hitem root
  have hplace : Rose.placeAll root b [o] = o.place root b := by simp
  have hmem : ∀ o', classOutline c = some o' → o' ∈ [o] := by
    intro o' ho'
    rw [ho, Option.some.injEq] at ho'
    rw [ho']
    exact List.mem_singleton_self o'
  rw [TopItem.nodesAt, ← hplace] at hnodes
  rw [TopItem.edgesAt, ← hplace] at hedges
  exact leads_of_placeAll hchain hlast hall hmem hnodes fun e he =>
    hedges (List.mem_append_left _ he)

theorem leads_of_topModule {tree c d cls : Cst} {cs : List Cst} (hc : c ∈ tree.children)
    (hkind : c.kind = .moduleDeclaration) (hchain : (c :: d :: cs).IsChain Member)
    (hlast : (d :: cs).getLast? = some cls) (hall : ∀ c' ∈ d :: cs, NamedClass c') (root : NodeId)
    : ∃ node ∈ (fileOutline tree).nodesAt root, StandsFor node cls
        ∧ Leads ((fileOutline tree).nodesAt root) ((fileOutline tree).edgesAt root) root
          (c :: d :: cs) node.id := by
  rw [List.isChain_cons_cons] at hchain
  obtain ⟨hmember, hchain⟩ := hchain
  simp only [Member, hkind] at hmember
  have hitem : TopItem.module (moduleName c) c.pos (moduleItemsOutline c) ∈ topItems c := by
    simp [topItems, hkind]
  obtain ⟨b, hnodes, hedges⟩ := exists_subset_of_topItem hc hitem root
  rw [TopItem.nodesAt, if_neg hmember.1, List.append_subset, List.cons_subset] at hnodes
  rw [TopItem.edgesAt, if_neg hmember.1, List.append_subset, List.cons_subset] at hedges
  have hd := (hall d List.mem_cons_self).1
  obtain ⟨node, hnode, hstands, hleads⟩ := leads_of_placeAll hchain hlast hall
    (fun o ho => mem_moduleItemsOutline hmember.2 hd ho) hnodes.1 hedges.1
  refine ⟨node, hnode, hstands, _, hnodes.2.1, ⟨?_, rfl, rfl⟩, hedges.2.1, hleads⟩
  simp [declaredKind, hkind, Declared.namedNode]

theorem leads_of_isSearched {tree cls : Cst} {containers : List Cst}
    (h : StandsIn tree containers cls) (hsearched : IsSearched containers) (root : NodeId)
    : ∃ node ∈ (fileOutline tree).nodesAt root, StandsFor node cls
        ∧ Leads ((fileOutline tree).nodesAt root) ((fileOutline tree).edgesAt root) root
          (containers ++ [cls]) node.id := by
  have hcls : NamedClass cls := ⟨h.kind, h.name⟩
  have htop := h.top
  have hnested := h.nested
  cases containers with
  | nil =>
    rw [List.nil_append] at *
    refine leads_of_topClass (htop cls rfl) hnested rfl ?_ root
    simpa using hcls
  | cons c cs =>
    obtain ⟨houtermost, hinner⟩ := hsearched
    have hc := htop c rfl
    have hall : ∀ c' ∈ cs ++ [cls], NamedClass c' := by
      simp only [List.forall_mem_append, List.forall_mem_singleton]
      exact ⟨hinner, hcls⟩
    rw [List.cons_append] at *
    cases houtermost with
    | inl hmodule =>
      have hlast : (cs ++ [cls]).getLast? = some cls := by simp
      obtain ⟨d, ds, heq⟩ :=
        List.exists_cons_of_ne_nil (List.append_ne_nil_of_right_ne_nil cs (List.cons_ne_nil cls []))
      rw [heq] at hnested hlast hall ⊢
      exact leads_of_topModule hc hmodule hnested hlast hall root
    | inr hclass =>
      refine leads_of_topClass hc hnested ?_ (List.forall_mem_cons.mpr ⟨hclass, hall⟩) root
      rw [← List.cons_append, List.getLast?_concat]

end Leads

section Counts

open ExtractM

theorem length_classNodesAt_append (pos : Position) (nodes nodes' : List NamedNode)
    : (classNodesAt pos (nodes ++ nodes')).length
        = (classNodesAt pos nodes).length + (classNodesAt pos nodes').length := by
  simp [classNodesAt]

theorem length_classNodesAt_nodesOf (pos : Position) (xs : List (Rose.Placement Declared))
    : (classNodesAt pos (nodesOf xs)).length
        =
      (xs.map Rose.Placement.label).countP fun d => d.kind.isClass && d.pos = pos := by
  rw [classNodesAt, ← List.countP_eq_length_filter, nodesOf, List.countP_map, List.countP_map]
  congr 1
  funext x
  cases hpos : x.label.pos
  cases pos
  simp [Declared.namedNode, hpos]

theorem length_classNodesAt_topItem (pos : Position) (root b : NodeId) (item : TopItem)
    : (classNodesAt pos (item.nodesAt root b)).length = classesAt pos [item.outline] := by
  cases item with
  | declared o =>
    rw [TopItem.nodesAt, length_classNodesAt_nodesOf, Rose.map_label_place]
    simp [TopItem.outline, classesAt]
  | «class» o =>
    rw [TopItem.nodesAt, length_classNodesAt_nodesOf, Rose.map_label_place]
    simp [TopItem.outline, classesAt]
  | module name p items =>
    have hown : ∀ b,
        classNodesAt pos [(Declared.mk (.module name) .contains p).namedNode b] = [] := by
      simp [classNodesAt, Declared.namedNode, NodeKind.isClass]
    rw [TopItem.nodesAt, length_classNodesAt_append, length_classNodesAt_nodesOf,
      Rose.map_label_placeAll, TopItem.outline, Outline.classesAt_node]
    split
    . simp [classesAt, classNodesAt, NodeKind.isClass]
    . rw [hown]
      simp [classesAt, NodeKind.isClass]

theorem length_classNodesAt (tree : Cst) (pos : Position) (root : NodeId)
    : (classNodesAt pos ((fileOutline tree).nodesAt root)).length
        =
      classesAt pos ((fileOutline tree).items.map TopItem.outline) := by
  have hitems : ∀ (items : List TopItem) (b : NodeId),
      (classNodesAt pos (TopItem.nodesAllAt root b items)).length
      = classesAt pos (items.map TopItem.outline) := by
    intro items
    induction items with
    | nil => simp [TopItem.nodesAllAt, classNodesAt]
    | cons item items ih =>
      intro b
      rw [TopItem.nodesAllAt, length_classNodesAt_append, length_classNodesAt_topItem, ih,
        ← classesAt_append]
      rfl
  rw [FileOutline.nodesAt, ← List.singleton_append, length_classNodesAt_append, hitems]
  simp [classNodesAt, FileOutline.rootNode, NodeKind.isClass]

end Counts

theorem mem_classNodesAt {nodes : List NamedNode} {node : NamedNode} {cls : Cst}
    (hcls : cls.kind = .classDeclaration) (hnode : node ∈ nodes) (hstands : StandsFor node cls)
    : node ∈ classNodesAt cls.pos nodes := by
  obtain ⟨hkind, hline, hcol⟩ := hstands
  simp only [declaredKind, hcls, Option.some.injEq] at hkind
  rw [classNodesAt, List.mem_filter, ← hkind, hline, hcol]
  exact ⟨hnode, by simp [NodeKind.isClass]⟩

theorem classesAt_items (tree : Cst) (pos : Position)
    : classesAt pos ((fileOutline tree).items.map TopItem.outline)
        =
      classesAt pos (tree.children.flatMap fun child => (topItems child).map TopItem.outline) := by
  rw [fileOutline, List.map_flatMap]

/--
A class is kept exactly if all declarations around it are classes with a name, except that the
outermost one may be a module: not below a package, not in a module that is nested in another
declaration, and not in a class whose name is missing.
-/
theorem hasNode_iff (ex : GraphExtractor) {tree cls : Cst} {containers : List Cst} (fileId : Nat)
    (h : StandsIn tree containers cls)
    : HasNode (namedNodes ex tree fileId) (ex.extract tree fileId).1.2 ex.nextId containers cls
        ↔
      IsSearched containers := by
  have hbound : ∀ child, classesAt cls.pos ((topItems child).map TopItem.outline)
      ≤ child.classesAt cls.pos :=
    classesAt_topItems_le
  have hlength := length_classNodesAt tree cls.pos ex.nextId
  rw [classesAt_items] at hlength
  have halone := h.alone
  rw [namedNodes_eq, (extract_extracts ex tree fileId).edges]
  constructor
  . rintro ⟨node, hone, _⟩
    by_contra hlost
    cases containers with
    | nil => exact hlost trivial
    | cons c cs =>
      have hshort := classesAt_topItems_lt h.kind h.nested hlost
      have hless :=
        (classesAt_flatMap_lt (fun child _ => hbound child) ⟨c, h.top c rfl, hshort⟩).trans_le
        (tree.classesIn_le cls.pos)
      rw [← hlength, hone, halone] at hless
      simp at hless
  . intro hsearched
    obtain ⟨node, hnode, hstands, hleads⟩ := leads_of_isSearched h hsearched ex.nextId
    have hmem : node ∈ classNodesAt cls.pos ((fileOutline tree).nodesAt ex.nextId) :=
      mem_classNodesAt h.kind hnode hstands
    have hatMost :=
      (classesAt_flatMap_le fun child _ => hbound child).trans (tree.classesIn_le cls.pos)
    rw [← hlength, halone] at hatMost
    obtain ⟨only, honly⟩ :=
      List.length_eq_one_iff.mp (Nat.le_antisymm hatMost (List.length_pos_of_mem hmem))
    rw [honly, List.mem_singleton] at hmem
    rw [← hmem] at honly
    exact ⟨node, honly, hstands, hleads⟩

def innerClass : Cst :=
  .node .classDeclaration [] "class i; endclass".toList ⟨0, 9⟩ [
    .node .simpleIdentifier [.name] "i".toList ⟨0, 15⟩ []]

def outerClass : Cst :=
  .node .classDeclaration [] "class o; class i; endclass endclass".toList ⟨0, 0⟩ [
    .node .simpleIdentifier [.name] "o".toList ⟨0, 6⟩ [],
    .node .classItem [] "class i; endclass".toList ⟨0, 9⟩ [innerClass]]

theorem hasNode_innerClass
    : HasNode (namedNodes .new (.node .other [] outerClass.text ⟨0, 0⟩ [outerClass]) 0)
        (GraphExtractor.new.extract (.node .other [] outerClass.text ⟨0, 0⟩ [outerClass]) 0).1.2
        GraphExtractor.new.nextId [outerClass] innerClass := by
  refine (hasNode_iff .new 0 ?_).mpr ⟨Or.inr ⟨rfl, by decide⟩, by simp⟩
  exact {
    kind := rfl
    name := by decide
    top := by
      intro outermost houtermost
      rw [← Option.some.inj houtermost]
      exact List.mem_singleton_self _
    nested := by
      rw [List.singleton_append, List.isChain_pair]
      exact ⟨_, List.mem_cons_of_mem _ (List.mem_singleton_self _), rfl, List.mem_singleton_self _⟩
    alone := by decide
  }

def packagedClass : Cst :=
  .node .classDeclaration [] "class c; endclass".toList ⟨0, 11⟩ [
    .node .simpleIdentifier [.name] "c".toList ⟨0, 17⟩ []]

def packageWithClass : Cst :=
  .node .packageDeclaration [] "package p; class c; endclass endpackage".toList ⟨0, 0⟩ [
    .node .simpleIdentifier [.name] "p".toList ⟨0, 8⟩ [],
    .node .packageItem [] "class c; endclass".toList ⟨0, 11⟩ [packagedClass]]

-- `extract_package_item` looks at imports and exports only
theorem not_hasNode_packagedClass
    : StandsIn (.node .other [] packageWithClass.text ⟨0, 0⟩ [packageWithClass])
        [packageWithClass] packagedClass
      ∧
    ¬HasNode (namedNodes .new (.node .other [] packageWithClass.text ⟨0, 0⟩ [packageWithClass]) 0)
        (GraphExtractor.new.extract
          (.node .other [] packageWithClass.text ⟨0, 0⟩ [packageWithClass]) 0).1.2
        GraphExtractor.new.nextId [packageWithClass] packagedClass := by
  have hstands : StandsIn (.node .other [] packageWithClass.text ⟨0, 0⟩ [packageWithClass])
      [packageWithClass]
      packagedClass := {
    kind := rfl
    name := by decide
    top := by
      intro outermost houtermost
      rw [← Option.some.inj houtermost]
      exact List.mem_singleton_self _
    nested := by
      rw [List.singleton_append, List.isChain_pair]
      exact ⟨_, List.mem_cons_of_mem _ (List.mem_singleton_self _), rfl, List.mem_singleton_self _⟩
    alone := by decide
  }
  refine ⟨hstands, ?_⟩
  rintro ⟨node, hone, _⟩
  rw [show classNodesAt packagedClass.pos _ = [] from rfl] at hone
  simp at hone

end GraphExtractor
end HdlGraph
