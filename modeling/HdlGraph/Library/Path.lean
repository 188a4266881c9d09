import HdlGraph.Library.Text

/-!
This module contains the paths of a file system: joining them, taking a base off and printing them.
A path is absolute or relative, and its parts go up, stay or go down to a name.
-/

structure FileName where
  text : Text
  ne_nil : text ≠ []
  no_slash : '/' ∉ text
  ne_dot : text ≠ ['.']
  ne_dotdot : text ≠ ['.', '.']
  deriving DecidableEq

namespace FileName

def extension (name : FileName) : Option Text :=
  let after := name.text.rtakeWhile (· ≠ '.')
  if after.length + 1 < name.text.length then some after else none

end FileName

-- Where a file or directory is: the names on the way from the root
abbrev Location := List FileName

inductive PathPart where
  | curDir
  | parentDir
  | normal (name : FileName)
  deriving DecidableEq

structure PathBuf where
  absolute : Bool
  parts : List PathPart
  deriving DecidableEq

namespace PathPart

def text : PathPart → Text
  | curDir => ['.']
  | parentDir => ['.', '.']
  | normal name => name.text

theorem text_injective : Function.Injective text := by
  intro part part' h
  cases part <;> cases part' <;> simp only [text] at h
  case normal.normal name name' =>
    cases name
    cases name'
    simp_all
  all_goals first
    | rfl
    | exact absurd h (by decide)
    | exact absurd h (FileName.ne_dot _)
    | exact absurd h (FileName.ne_dotdot _)
    | exact absurd h.symm (FileName.ne_dot _)
    | exact absurd h.symm (FileName.ne_dotdot _)

theorem slash_notMem_text (part : PathPart) : '/' ∉ part.text := by
  cases part with
  | curDir => decide
  | parentDir => decide
  | normal name => exact name.no_slash

theorem text_ne_nil (part : PathPart) : part.text ≠ [] := by
  cases part with
  | curDir => decide
  | parentDir => decide
  | normal name => exact name.ne_nil

end PathPart

namespace PathBuf

def join (p q : PathBuf) : PathBuf :=
  if q.absolute ∨ (p.absolute = false ∧ p.parts = []) then
    q
  else
    ⟨p.absolute, p.parts ++ q.parts.filter (· ≠ .curDir)⟩

def child (dir : PathBuf) (below : List FileName) : PathBuf :=
  ⟨dir.absolute, dir.parts ++ below.map .normal⟩

-- `p.strip_prefix(base)`
def strip? (base p : PathBuf) : Option PathBuf :=
  if base.absolute = false ∧ base.parts = [] then
    some p
  else if base.absolute = p.absolute ∧ base.parts <+: p.parts then
    some ⟨false, p.parts.drop base.parts.length⟩
  else
    none

def extension (p : PathBuf) : Option Text :=
  match p.parts.getLast? with
  | some (.normal name) => name.extension
  | _ => none

def toText (p : PathBuf) : Text :=
  (if p.absolute then ['/'] else []) ++ ['/'].intercalate (p.parts.map PathPart.text)

def locate (cwd : Location) (p : PathBuf) : Location :=
  p.parts.foldl
    (fun loc part =>
      match part with
      | .curDir => loc
      | .parentDir => loc.dropLast
      | .normal name => loc ++ [name])
    (if p.absolute then [] else cwd)

/-! ## Paths written as text -/

def components (s : Text) : List PathPart :=
  (s.splitOn '/').filterMap fun text =>
    if htext : text ≠ [] ∧ '/' ∉ text ∧ text ≠ ['.'] ∧ text ≠ ['.', '.'] then
      some (.normal ⟨text, htext.1, htext.2.1, htext.2.2.1, htext.2.2.2⟩)
    else if text = ['.'] then
      some .curDir
    else if text = ['.', '.'] then
      some .parentDir
    else
      none

-- `Path::new(s)`: empty parts do not count, nor does `.` except in front of a relative path
def ofText (s : Text) : PathBuf where
  absolute := s.head? = some '/'
  parts :=
    if s.head? = some '/' then
      (components s).filter (· ≠ .curDir)
    else
      (components s).take 1 ++ ((components s).drop 1).filter (· ≠ .curDir)

def descend (loc : Location) (parts : List PathPart) : Location :=
  parts.foldl
    (fun loc part =>
      match part with
      | .curDir => loc
      | .parentDir => loc.dropLast
      | .normal name => loc ++ [name])
    loc

theorem locate_eq_descend (cwd : Location) (p : PathBuf)
    : p.locate cwd = descend (if p.absolute then [] else cwd) p.parts := rfl

theorem descend_append (loc : Location) (parts parts' : List PathPart)
    : descend loc (parts ++ parts') = descend (descend loc parts) parts' := List.foldl_append

theorem descend_filter (loc : Location) (parts : List PathPart)
    : descend loc (parts.filter (· ≠ .curDir)) = descend loc parts := by
  induction parts generalizing loc with
  | nil => rfl
  | cons part rest ih =>
    cases part with
    | curDir => exact ih loc
    | parentDir => exact ih _
    | normal name => exact ih _

theorem descend_parts_ofText (loc : Location) (s : Text)
    : descend loc (ofText s).parts = descend loc (components s) := by
  rw [ofText]
  dsimp only
  split
  . exact descend_filter loc _
  . rw [descend_append, descend_filter, ← descend_append, List.take_append_drop]

theorem components_curDir (s : Text) : components ("./".toList ++ s) = .curDir :: components s := by
  have hsplit : ("./".toList ++ s).splitOn '/' = ['.'] :: s.splitOn '/' :=
    List.splitOn_append_cons_of_beq ['.'] s (by decide)
  rw [components, hsplit, List.filterMap_cons_some (b := .curDir) (by simp)]
  rfl

theorem locate_join (cwd : Location) (p q : PathBuf)
    : (p.join q).locate cwd = descend (if q.absolute then [] else p.locate cwd) q.parts := by
  rw [join]
  cases habsolute : q.absolute with
  | true =>
    rw [if_pos (Or.inl rfl), locate_eq_descend, habsolute]
    rfl
  | false =>
    simp only [Bool.false_eq_true, false_or, if_false]
    split
    . next h =>
      rw [locate_eq_descend, locate_eq_descend, habsolute, h.1, h.2]
      rfl
    . rw [locate_eq_descend, descend_append, descend_filter]
      rfl

theorem descend_suffix {loc loc' : Location} (h : loc <:+ loc') (parts : List PathPart)
    : descend loc parts <:+ descend loc' parts := by
  induction parts generalizing loc loc' with
  | nil => exact h
  | cons part rest ih =>
    cases part with
    | curDir => exact ih h
    | parentDir =>
      apply ih
      obtain ⟨front, rfl⟩ := h
      change loc.dropLast <:+ (front ++ loc).dropLast
      cases loc with
      | nil => exact List.nil_suffix
      | cons name rest =>
        rw [List.dropLast_append_of_ne_nil (List.cons_ne_nil _ _)]
        exact List.suffix_append _ _
    | normal name =>
      apply ih
      obtain ⟨front, rfl⟩ := h
      exact ⟨front, (List.append_assoc _ _ _).symm⟩

theorem locate_child (cwd : Location) (dir : PathBuf) (below : List FileName)
    : (dir.child below).locate cwd = dir.locate cwd ++ below := by
  unfold locate child
  dsimp only
  rw [List.foldl_append]
  generalize List.foldl _ _ dir.parts = loc
  induction below generalizing loc with
  | nil => simp
  | cons name rest ih =>
    rw [List.map_cons, List.foldl_cons, ih, List.append_assoc]
    rfl

theorem intercalate_injective {parts parts' : List PathPart}
    (h : ['/'].intercalate (parts.map PathPart.text) = ['/'].intercalate (parts'.map PathPart.text))
    : parts = parts' := by
  have hsplit : ∀ parts : List PathPart, parts ≠ [] →
      (['/'].intercalate (parts.map PathPart.text)).splitOn '/' = parts.map PathPart.text := by
    intro parts hne
    apply List.splitOn_intercalate
    . intro text htext
      obtain ⟨part, _, rfl⟩ := List.mem_map.mp htext
      exact part.slash_notMem_text
    . simpa using hne
  have hnil : ∀ parts : List PathPart, ['/'].intercalate (parts.map PathPart.text) = [] →
      parts = [] := by
    intro parts hempty
    by_contra hne
    have := hsplit parts hne
    rw [hempty] at this
    cases parts with
    | nil => exact hne rfl
    | cons part rest => simp [PathPart.text_ne_nil] at this
  by_cases hne : parts = []
  . subst hne
    exact (hnil parts' h.symm).symm
  . by_cases hne' : parts' = []
    . subst hne'
      exact hnil parts h
    . have hmap : parts.map PathPart.text = parts'.map PathPart.text := by
        rw [← hsplit parts hne, ← hsplit parts' hne', h]
      exact List.map_injective_iff.mpr PathPart.text_injective hmap

theorem head?_toText_ne (parts : List PathPart) : (toText ⟨false, parts⟩).head? ≠ some '/' := by
  cases parts with
  | nil => simp [toText]
  | cons part rest =>
    have hne := part.text_ne_nil
    have hslash := part.slash_notMem_text
    intro h
    cases htext : part.text with
    | nil => exact hne htext
    | cons c cs =>
      rw [htext] at hslash
      cases rest <;> simp_all [toText]

theorem toText_injective : Function.Injective toText := by
  rintro ⟨absolute, parts⟩ ⟨absolute', parts'⟩ h
  cases absolute <;> cases absolute'
  case false.false => exact congrArg _ (intercalate_injective (by simpa [toText] using h))
  case true.true => exact congrArg _ (intercalate_injective (by simpa [toText] using h))
  case false.true =>
    exact absurd (congrArg List.head? h) (by simpa [toText] using head?_toText_ne parts)
  case true.false =>
    exact absurd (congrArg List.head? h.symm) (by simpa [toText] using head?_toText_ne parts')

-- `p.strip_prefix(base).unwrap_or(p)` as text
def relTo (base p : PathBuf) : Text := ((base.strip? p).getD p).toText

def Under (base p : PathBuf) : Prop := p.absolute = true ∨ base.absolute = false
    ∧ base.parts <+: p.parts

theorem under_join_child (base q : PathBuf) (below : List FileName)
    : Under base ((base.join q).child below) := by
  unfold Under join
  split
  . next h =>
    cases h with
    | inl h => exact Or.inl h
    | inr h =>
      right
      rw [h.2]
      exact ⟨h.1, List.nil_prefix⟩
  . cases habs : base.absolute with
    | true => exact Or.inl rfl
    | false => exact Or.inr ⟨rfl, (List.prefix_append _ _).trans (List.prefix_append _ _)⟩

theorem under_child (base : PathBuf) (below : List FileName) : Under base (base.child below) := by
  unfold Under child
  cases base.absolute with
  | true => exact Or.inl rfl
  | false => exact Or.inr ⟨rfl, List.prefix_append _ _⟩

theorem relTo_injective {base p q : PathBuf} (hp : Under base p) (hq : Under base q)
    (h : relTo base p = relTo base q)
    : p = q := by
  have hstrip := toText_injective h
  obtain ⟨absolute, parts⟩ := p
  obtain ⟨absolute', parts'⟩ := q
  unfold Under at hp hq
  unfold strip? at hstrip
  dsimp only at hp hq hstrip
  split at hstrip
  . exact hstrip
  . split at hstrip
    . next h₁ =>
      obtain ⟨habs₁, rest, rfl⟩ := h₁
      split at hstrip
      . next h₂ =>
        obtain ⟨habs₂, rest', rfl⟩ := h₂
        simp at hstrip
        rw [← habs₁, ← habs₂, hstrip]
      . next hnot =>
        simp at hstrip
        grind
    . next hnot =>
      split at hstrip
      . next h₂ =>
        simp at hstrip
        grind
      . exact hstrip

end PathBuf
