import HdlGraph.Library.Brackets
import HdlGraph.Parse.Extractor.Uvm

/-!
This module contains how the type of a factory registration is read from the text of a declaration:
from which texts a type is read and which, and that it is read back from every declaration that is
written the way the registries are.
-/

namespace HdlGraph
namespace Registration

open Text Brackets GraphExtractor

def parens : List (Char × Char) := [('(', ')')]

def squares : List (Char × Char) := [('[', ']')]

def braces : List (Char × Char) := [('\x7b', '\x7d')]

def brackets : List (Char × Char) := [('(', ')'), ('[', ']'), ('\x7b', '\x7d')]

/-- The first `#(` of the text opens these parameters, and the parenthesis behind them closes it. -/
def IsParamList (declText params : Text) : Prop :=
  ∃ front back, declText = front ++ ("#(".toList ++ (params ++ ')' :: back))
    ∧ contains front "#(".toList = false
    ∧ Balanced parens params

/-- The parameter ends at the first comma outside brackets, of which `d` are open in front of it. -/
def IsFirstParam (d : Int) (params param : Text) : Prop :=
  NoneOutside brackets ',' d param
    ∧ (params = param ∨ ∃ more, params = param ++ ',' :: more ∧ d + rise brackets param = 0)

/-! ## The parameter list -/

theorem step_parens (c : Char)
    : step parens c = if c = '(' then 1 else if c = ')' then -1 else 0 := by
  simp [step, parens]

theorem step_brackets (c : Char)
    : step brackets c
        = if c = '(' ∨ c = '[' ∨ c = '\x7b' then 1 else if c = ')' ∨ c = ']'
          ∨ c = '\x7d' then -1 else 0 := by
  simp [step, brackets]

theorem upToClosingParen_append {u : Text} {d : Int} (hbelow : NeverBelow parens d u)
    {depth depth' : Nat} (hdepth : (depth : Int) = d + 1)
    (hdepth' : (depth' : Int) = d + rise parens u + 1) (v : Text)
    : upToClosingParen depth (u ++ v) = (upToClosingParen depth' v).map (u ++ ·) := by
  induction u generalizing d depth with
  | nil =>
    have : depth' = depth := by
      simp only [rise_nil] at hdepth'
      omega
    simp [this]
  | cons c u ih =>
    have hstep := step_parens c
    have hge := hbelow.1
    rw [rise_cons] at hdepth'
    rw [List.cons_append, upToClosingParen]
    split
    . next hc =>
      rw [if_pos hc] at hstep
      rw [ih hbelow.2 (by omega) (by omega), Option.map_map]
      rfl
    . next hopen =>
      rw [if_neg hopen] at hstep
      split
      . next hc =>
        rw [if_pos hc] at hstep
        rw [if_neg (by omega), ih hbelow.2 (by omega) (by omega), Option.map_map]
        rfl
      . next hclose =>
        rw [if_neg hclose] at hstep
        rw [ih hbelow.2 (by omega) (by omega), Option.map_map]
        rfl

theorem exists_of_upToClosingParen {depth : Nat} {d : Int} (hd : 0 ≤ d)
    (hdepth : (depth : Int) = d + 1) {s params : Text} (h : upToClosingParen depth s = some params)
    : ∃ back, s = params ++ ')' :: back ∧ NeverBelow parens d params
        ∧ d + rise parens params = 0 := by
  induction s generalizing depth d params with
  | nil => cases h
  | cons c s ih =>
    have hstep := step_parens c
    have hkept {depth' : Nat} (hge : 0 ≤ d + step parens c)
        (hdepth' : (depth' : Int) = d + step parens c + 1)
        (h : (upToClosingParen depth' s).map (c :: ·) = some params)
        : ∃ back, c :: s = params ++ ')' :: back ∧ NeverBelow parens d params
            ∧ d + rise parens params = 0 := by
      obtain ⟨params', hparams, rfl⟩ := Option.map_eq_some_iff.mp h
      obtain ⟨back, rfl, hbelow, hrise⟩ := ih hge hdepth' hparams
      refine ⟨back, rfl, ⟨hge, hbelow⟩, ?_⟩
      rw [rise_cons]
      omega
    rw [upToClosingParen] at h
    split at h
    . next hc =>
      rw [if_pos hc] at hstep
      exact hkept (by omega) (by omega) h
    . next hopen =>
      rw [if_neg hopen] at hstep
      split at h
      . next hc =>
        rw [if_pos hc] at hstep
        split at h
        . cases h
          exact ⟨s, by rw [hc]; rfl, trivial, by rw [rise_nil]; omega⟩
        . exact hkept (by omega) (by omega) h
      . next hclose =>
        rw [if_neg hclose] at hstep
        exact hkept (by omega) (by omega) h

theorem upToClosingParen_eq_some_iff {s params : Text}
    : upToClosingParen 1 s = some params
        ↔ ∃ back, s = params ++ ')' :: back ∧ Balanced parens params := by
  constructor
  . intro h
    obtain ⟨back, heq, hbelow, hrise⟩ := exists_of_upToClosingParen (le_refl 0) rfl h
    exact ⟨back, heq, hbelow, by simpa using hrise⟩
  . rintro ⟨back, rfl, hparams⟩
    have hdepth : ((1 : Nat) : Int) = 0 + rise parens params + 1 := by
      rw [hparams.rise_eq]
      rfl
    rw [upToClosingParen_append hparams.neverBelow rfl hdepth, upToClosingParen]
    simp

/-! ## The first parameter -/

theorem firstParam_append {u : Text} {d : Int} (hcomma : NoneOutside brackets ',' d u) (v : Text)
    : firstParam d (u ++ v) = u ++ firstParam (d + rise brackets u) v := by
  induction u generalizing d with
  | nil => simp
  | cons c u ih =>
    have hstep := step_brackets c
    have ih := ih hcomma.2
    rw [rise_cons, ← add_assoc, List.cons_append, List.cons_append, firstParam]
    split
    . next hc =>
      rw [if_pos hc] at hstep
      rw [← ih, hstep]
    . next hopen =>
      rw [if_neg hopen] at hstep
      split
      . next hc =>
        rw [if_pos hc] at hstep
        rw [← ih, hstep]
        rfl
      . next hclose =>
        rw [if_neg hclose] at hstep
        have hsep : ¬(c = ',' ∧ d = 0) := fun h => hcomma.1 h.1 h.2
        rw [if_neg hsep, ← ih, hstep, add_zero]

theorem IsFirstParam.cons {d : Int} {params param : Text} {c : Char} (hc : c = ',' → d ≠ 0)
    (h : IsFirstParam (d + step brackets c) params param)
    : IsFirstParam d (c :: params) (c :: param) := by
  refine ⟨⟨hc, h.1⟩, ?_⟩
  rw [rise_cons, ← add_assoc]
  cases h.2 with
  | inl heq => exact Or.inl (by rw [heq])
  | inr h =>
    obtain ⟨more, heq, hclosed⟩ := h
    exact Or.inr ⟨more, by rw [heq, List.cons_append], hclosed⟩

theorem isFirstParam_firstParam (d : Int) (params : Text)
    : IsFirstParam d params (firstParam d params) := by
  induction params generalizing d with
  | nil => exact ⟨trivial, Or.inl rfl⟩
  | cons c params ih =>
    have hstep := step_brackets c
    rw [firstParam]
    split
    . next hc =>
      rw [if_pos hc] at hstep
      exact .cons (by grind) (hstep ▸ ih _)
    . next hopen =>
      rw [if_neg hopen] at hstep
      split
      . next hc =>
        rw [if_pos hc] at hstep
        exact .cons (by grind) (hstep ▸ ih _)
      . next hclose =>
        rw [if_neg hclose] at hstep
        split
        . next hc => exact ⟨trivial, Or.inr ⟨params, by simp [hc.1], by simpa using hc.2⟩⟩
        . next hsep =>
            exact .cons (fun hc hd => hsep ⟨hc, hd⟩) (by rw [hstep, add_zero]; exact ih d)

theorem firstParam_eq_iff {d : Int} {params param : Text} : firstParam d params = param
    ↔ IsFirstParam d params param := by
  constructor
  . intro h
    exact h ▸ isFirstParam_firstParam d params
  . rintro ⟨hcomma, rfl | ⟨more, rfl, hclosed⟩⟩
    . have := firstParam_append hcomma []
      rwa [List.append_nil, firstParam, List.append_nil] at this
    . rw [firstParam_append hcomma, hclosed, firstParam]
      simp

/-! ## The type -/

theorem parseRegistryTypeName_of_isParamList {declText params : Text}
    (h : IsParamList declText params)
    : parseRegistryTypeName declText
        = if trim (firstParam 0 params) = [] then none else some (trim (firstParam 0 params)) := by
  obtain ⟨front, back, rfl, hfront, hparams⟩ := h
  have hclosed := upToClosingParen_eq_some_iff.mpr ⟨back, rfl, hparams⟩
  have hfind :=
    find?_append_of_not_contains (show '#' ∉ ['('] by decide) hfront (params ++ ')' :: back)
  unfold parseRegistryTypeName
  rw [show "#(".toList = '#' :: ['('] from rfl, hfind]
  simp only [Option.bind_eq_bind, Option.bind_some, hclosed]

theorem exists_isParamList {declText name : Text} (h : parseRegistryTypeName declText = some name)
    : ∃ params, IsParamList declText params := by
  simp only [parseRegistryTypeName, Option.bind_eq_bind, Option.bind_eq_some_iff] at h
  obtain ⟨⟨pos, afterParen⟩, hfind, params, hclosed, _⟩ := h
  obtain ⟨front, rfl, hfront⟩ := exists_of_find? hfind
  obtain ⟨back, rfl, hparams⟩ := upToClosingParen_eq_some_iff.mp hclosed
  exact ⟨params, front, back, rfl, hfront, hparams⟩

/--
The type that is read is the first parameter of the first parameter list. None is read where no list
is closed or its first parameter is blank.
-/
theorem parseRegistryTypeName_eq_some_iff {declText name : Text}
    : parseRegistryTypeName declText = some name
      ↔ name ≠ [] ∧ ∃ params, IsParamList declText params ∧ ∃ param, IsFirstParam 0 params param
        ∧ trim param = name := by
  constructor
  . intro h
    obtain ⟨params, hparams⟩ := exists_isParamList h
    rw [parseRegistryTypeName_of_isParamList hparams] at h
    split at h
    . contradiction
    . next hne =>
      cases h
      exact ⟨hne, params, hparams, _, isFirstParam_firstParam 0 params, rfl⟩
  . rintro ⟨hne, params, hparams, param, hparam, rfl⟩
    rw [parseRegistryTypeName_of_isParamList hparams, firstParam_eq_iff.mpr hparam, if_neg hne]

/-! ## Written declarations -/

/-- What stands in a declaration of a registry. -/
structure RegistryDecl where
  front : Text
  typeText : Text
  further : Option Text
  back : Text
  first : contains front "#(".toList = false
  properlyNested : ProperlyNested brackets typeText
  noComma : NoneOutside brackets ',' 0 typeText
  notBlank : trim typeText ≠ []
  balanced : ∀ more ∈ further, Balanced parens more

namespace RegistryDecl

def params (decl : RegistryDecl) : Text :=
  match decl.further with
  | none => decl.typeText
  | some more => decl.typeText ++ (", ".toList ++ more)

def text (decl : RegistryDecl) : Text :=
  decl.front ++ ("#(".toList ++ (decl.params ++ ')' :: decl.back))

theorem isParamList_text (decl : RegistryDecl) : IsParamList decl.text decl.params := by
  refine ⟨decl.front, decl.back, rfl, decl.first, ?_⟩
  have htype : Balanced parens decl.typeText := decl.properlyNested.balanced (by decide) (by decide)
  unfold params
  split
  . exact htype
  . next more hmore =>
    have hsep : Balanced parens ", ".toList := by decide
    exact htype.append (hsep.append (decl.balanced more hmore))

theorem isFirstParam_params (decl : RegistryDecl) : IsFirstParam 0 decl.params decl.typeText := by
  have htype : Balanced brackets decl.typeText :=
    decl.properlyNested.balanced (by decide) (List.Subset.refl _)
  refine ⟨decl.noComma, ?_⟩
  unfold params
  split
  . exact Or.inl rfl
  . next more _ => exact Or.inr ⟨' ' :: more, rfl, by rw [htype.rise_eq]; rfl⟩

end RegistryDecl

/-- Writing a type between brackets is undone, whatever stands before and behind it. -/
theorem parseRegistryTypeName_text (decl : RegistryDecl)
    : parseRegistryTypeName decl.text = some (trim decl.typeText) :=
  parseRegistryTypeName_eq_some_iff.mpr
    ⟨decl.notBlank, decl.params, decl.isParamList_text, decl.typeText,
      decl.isFirstParam_params, rfl⟩

theorem parseRegistryTypeName_text_fifo
    : parseRegistryTypeName "typedef registry #(fifo #(bit[3:0], (8)) , fifo) type_id;".toList
        = some "fifo #(bit[3:0], (8))".toList :=
  parseRegistryTypeName_text
    { front := "typedef registry ".toList
      typeText := "fifo #(bit[3:0], (8)) ".toList
      further := some "fifo".toList
      back := " type_id;".toList
      first := by decide
      properlyNested := by decide
      noComma := by decide
      notBlank := by decide
      balanced := by decide }

end Registration
end HdlGraph
