import HdlGraph.Parse.Cst

/-!
This module contains two ways to look for nodes in a syntax tree: all nodes below a node, and those
that a search comes to that does not go below what it finds and leaves out what it skips.
-/

namespace HdlGraph
namespace Cst

variable (found skipped : SyntaxKind → Bool)

mutual

-- The nodes below a node of a kind that is `found`, in document order
def within : Cst → List Cst
  | .node _ _ _ _ children => withinAll children

def withinAll : List Cst → List Cst
  | [] => []
  | child :: rest =>
    (if found child.kind then child :: within child else within child) ++ withinAll rest

end

mutual

def reached : Cst → List Cst
  | .node _ _ _ _ children => reachedAll children

def reachedAll : List Cst → List Cst
  | [] => []
  | child :: rest =>
    (if found child.kind then [child] else if skipped child.kind then [] else reached child)
    ++ reachedAll rest

end

/-- What is looked for is at the node or below it, with nothing on the way that is skipped. -/
inductive Exposed : Cst → Prop where
  | self {node : Cst} (h : found node.kind) : Exposed node
  | inside {node child : Cst} (h : skipped node.kind = false) (hmem : child ∈ node.children)
      (hchild : Exposed child)
    : Exposed node

variable {found skipped}

@[simp]
theorem withinAll_nil : withinAll found [] = [] := by simp only [withinAll]

@[simp]
theorem withinAll_cons (child : Cst) (rest : List Cst)
    : withinAll found (child :: rest)
        =
      (if found child.kind then child :: within found child else within found child)
      ++ withinAll found rest := by
  simp only [withinAll]

@[simp]
theorem reachedAll_nil : reachedAll found skipped [] = [] := by simp only [reachedAll]

@[simp]
theorem reachedAll_cons (child : Cst) (rest : List Cst)
    : reachedAll found skipped (child :: rest)
        =
      (if found child.kind then [child]
        else if skipped child.kind then []
        else reached found skipped child) ++ reachedAll found skipped rest := by
  simp only [reachedAll]

theorem reached_eq (node : Cst)
    : reached found skipped node = reachedAll found skipped node.children := by
  cases node
  simp only [reached, children]

@[simp]
theorem reachedAll_append (xs ys : List Cst)
    : reachedAll found skipped (xs ++ ys)
        = reachedAll found skipped xs ++ reachedAll found skipped ys := by
  induction xs with
  | nil => simp
  | cons x xs ih => simp [ih]

mutual

theorem reached_sublist_within
    : (node : Cst) → (reached found skipped node).Sublist (within found node)
  | .node _ _ _ _ children => by
    rw [reached, within]
    exact reachedAll_sublist_withinAll children

theorem reachedAll_sublist_withinAll
    : (children : List Cst) → (reachedAll found skipped children).Sublist (withinAll found children)
  | [] => by simp
  | child :: rest => by
    rw [reachedAll_cons, withinAll_cons]
    apply List.Sublist.append _ (reachedAll_sublist_withinAll rest)
    split
    . exact (List.nil_sublist _).cons_cons child
    . split
      . exact List.nil_sublist _
      . exact reached_sublist_within child

end

/-! A search comes to nothing if nothing is exposed. -/

mutual

theorem reached_eq_nil_of_not_exposed
    : (node : Cst) → found node.kind = false → skipped node.kind = false →
        ¬Exposed found skipped node →
      reached found skipped node = []
  | .node _ _ _ _ children, _, hskipped, h => by
    rw [reached]
    apply reachedAll_eq_nil_of_not_exposed children
    intro child hmem hchild
    exact h (.inside hskipped hmem hchild)

theorem reachedAll_eq_nil_of_not_exposed
    : (nodes : List Cst) → (∀ node ∈ nodes, ¬Exposed found skipped node) →
        reachedAll found skipped nodes = []
  | [], _ => by simp
  | child :: rest, h => by
    rw [List.forall_mem_cons] at h
    rw [reachedAll_cons, reachedAll_eq_nil_of_not_exposed rest h.2, List.append_nil]
    have hfound : found child.kind = false := Bool.eq_false_iff.mpr fun hfound => h.1 (.self hfound)
    rw [hfound]
    cases hskipped : skipped child.kind with
    | true => rfl
    | false => exact reached_eq_nil_of_not_exposed child hfound hskipped h.1

end

theorem reachedAll_eq_nil_iff {nodes : List Cst}
    : reachedAll found skipped nodes = [] ↔ ∀ node ∈ nodes, ¬Exposed found skipped node := by
  constructor
  . intro h node hmem hexposed
    induction hexposed generalizing nodes with
    | self hfound =>
      obtain ⟨before, after, rfl⟩ := List.append_of_mem hmem
      simp [hfound] at h
    | @inside node child hskipped hchild _ ih =>
      obtain ⟨before, after, rfl⟩ := List.append_of_mem hmem
      rw [reachedAll_append, reachedAll_cons, hskipped, reached_eq] at h
      cases hfound : found node.kind with
      | true => simp [hfound] at h
      | false =>
        simp only [hfound, Bool.false_eq_true, if_false, List.append_eq_nil_iff] at h
        exact ih h.2.1 hchild
  . exact reachedAll_eq_nil_of_not_exposed nodes

/-! A search that skips nothing finds all there is if what it looks for is not nested. -/

mutual

theorem reached_eq_within_iff
    : (node : Cst) →
      (reached found (fun _ => false) node = within found node
        ↔ ∀ c ∈ within found node, within found c = [])
  | .node _ _ _ _ children => by
    rw [reached, within]
    exact reachedAll_eq_withinAll_iff children

theorem reachedAll_eq_withinAll_iff
    : (children : List Cst) →
      (reachedAll found (fun _ => false) children = withinAll found children
        ↔
      ∀ c ∈ withinAll found children, within found c = [])
  | [] => by simp
  | child :: rest => by
    have hchild : (reached found (fun _ => false) child).length ≤ (within found child).length :=
      (reached_sublist_within child).length_le
    have hrest : (reachedAll found (fun _ => false) rest).length ≤ (withinAll found rest).length :=
      (reachedAll_sublist_withinAll rest).length_le
    rw [reachedAll_cons, withinAll_cons, List.forall_mem_append, ← reachedAll_eq_withinAll_iff rest]
    split
    . next h =>
      simp only [List.forall_mem_cons]
      constructor
      . intro heq
        have hlength := congrArg List.length heq
        simp only [List.length_append, List.length_cons, List.length_nil] at hlength
        have hnil : within found child = [] := List.eq_nil_of_length_eq_zero (by omega)
        rw [hnil] at heq ⊢
        exact ⟨⟨rfl, by simp⟩, List.append_cancel_left heq⟩
      . intro ⟨⟨hnil, _⟩, heq⟩
        rw [hnil, heq]
    . rw [if_neg (by simp), ← reached_eq_within_iff child]
      constructor
      . intro heq
        have hlength := congrArg List.length heq
        simp only [List.length_append] at hlength
        exact List.append_inj heq (by omega)
      . intro ⟨heq, heq'⟩
        rw [heq, heq']

end

end Cst
end HdlGraph
