import HdlGraph.Frontend.Completion
import HdlGraph.Library.Nesting

/-!
This module contains the modules and classes that the words of a document open and close, and when
the zone of completion is the innermost one that is open.
-/

namespace HdlGraph
namespace Lsp

open Text Nesting

inductive Construct where
  | moduleDecl
  | classDecl
  deriving DecidableEq, Repr

def markOf (w : Text) : Option (Mark Construct) :=
  if w = "module".toList then some (.opens .moduleDecl)
  else if w = "endmodule".toList then some (.closes .moduleDecl)
  else if w = "class".toList then some (.opens .classDecl)
  else if w = "endclass".toList then some (.closes .classDecl)
  else none

-- Modules are in modules, classes in modules or classes
def mayOpen : Construct → List Construct → Bool
  | .moduleDecl, stack => stack.head? ≠ some .classDecl
  | .classDecl, _ => true

variable (u : Unicode)

def isSvWordChar (c : Char) : Bool := u.isIdentifier c || c = '$'

def lineMarks (raw : Text) : List (Mark Construct) :=
  (Words.words (isSvWordChar u) raw).filterMap markOf

-- The marks that completion takes the line for
def readMarks (raw : Text) : List (Mark Construct) :=
  (Words.words u.isIdentifier (u.toLowercase raw)).filterMap markOf

def WellNested (content : Text) : Prop := Nested mayOpen ((lines content).flatMap (lineMarks u))

instance (content : Text) : Decidable (WellNested u content) :=
  inferInstanceAs (Decidable (Nested _ _))

def marksTo (content : Text) (line : Nat) : List (Mark Construct) :=
  ((lines content).take (line + 1)).flatMap (lineMarks u)

def readMarksTo (content : Text) (line : Nat) : List (Mark Construct) :=
  ((lines content).take (line + 1)).flatMap (readMarks u)

def zoneOf : Option Construct → CompletionZone
  | some .classDecl => .classBody
  | some .moduleDecl => .moduleBody
  | none => .moduleLevel

/-- The zone of the innermost construct that is opened but not closed on the lines up to one. -/
def enclosingZone (content : Text) (line : Nat) : CompletionZone :=
  zoneOf ((nest mayOpen [] (marksTo u content line)).bind List.head?)

/-! ## The counters -/

def depthsOf (marks : List (Mark Construct)) : Depths :=
  ⟨depth .moduleDecl marks, depth .classDecl marks⟩

theorem countWord_depthsOf (marks : List (Mark Construct)) (w : Text)
    : (depthsOf marks).countWord w = depthsOf (marks ++ (markOf w).toList) := by
  unfold Depths.countWord markOf
  split
  . simp [depthsOf, depth_concat, count]
  . split
    . simp [depthsOf, depth_concat, count]
      omega
    . split
      . simp [depthsOf, depth_concat, count]
      . split
        . simp [depthsOf, depth_concat, count]
          omega
        . rw [Option.toList_none, List.append_nil]

theorem foldl_countWord (ws : List Text) (marks : List (Mark Construct))
    : ws.foldl Depths.countWord (depthsOf marks) = depthsOf (marks ++ ws.filterMap markOf) := by
  induction ws generalizing marks with
  | nil => rw [List.filterMap_nil, List.append_nil]; rfl
  | cons w ws ih =>
    rw [List.foldl_cons, countWord_depthsOf, ih, List.append_assoc]
    cases hw : markOf w <;> simp [hw]

theorem foldl_countLine (ls : List Text) (marks : List (Mark Construct))
    : ls.foldl (Depths.countLine u) (depthsOf marks)
        = depthsOf (marks ++ ls.flatMap (readMarks u)) := by
  induction ls generalizing marks with
  | nil => rw [List.flatMap_nil, List.append_nil]; rfl
  | cons l ls ih =>
    rw [List.foldl_cons, Depths.countLine, foldl_countWord, ih, List.flatMap_cons,
      List.append_assoc]; rfl

theorem any_range_eq (ls : List Text) (line : Nat) (p : Text → Bool)
    : ((List.range (min line (ls.length - 1) + 1)).any fun idx => ls[idx]?.any p)
        = (ls.take (line + 1)).any p := by
  rw [Bool.eq_iff_iff]
  simp only [List.any_eq_true, List.mem_range, Option.any_eq_true, List.mem_take_iff_getElem,
    List.getElem?_eq_some_iff]
  constructor
  . rintro ⟨idx, hidx, l, ⟨hlt, rfl⟩, hl⟩
    exact ⟨_, ⟨idx, by omega, rfl⟩, hl⟩
  . rintro ⟨l, ⟨idx, hidx, rfl⟩, hl⟩
    exact ⟨idx, by omega, _, ⟨by omega, rfl⟩, hl⟩

variable {u} {content : Text} {line : Nat}

variable (u) in
/-- Some line up to the place has the letters of `module` but not those of `endmodule`. -/
def SeemsOpen (content : Text) (line : Nat) : Prop :=
  ∃ l ∈ (lines content).take (line + 1), opensModuleOnly u l = true

instance : Decidable (SeemsOpen u content line) := inferInstanceAs (Decidable (∃ l ∈ _, _))

theorem determineZone_eq (u : Unicode) (content : Text) (line : Nat)
    : determineZone u content line
        = if 0 < depth .classDecl (readMarksTo u content line) then .classBody
          else if 0 < depth .moduleDecl (readMarksTo u content line) then .moduleBody
          else if SeemsOpen u content line then .moduleBody
          else .moduleLevel := by
  have hdepths : ((lines content).take (line + 1)).foldl (Depths.countLine u) ⟨0, 0⟩
      = depthsOf (readMarksTo u content line) :=
    foldl_countLine u _ []
  unfold determineZone
  simp only [hdepths, depthsOf, Int.natCast_pos, any_range_eq, List.any_eq_true]
  rfl

/-! ## The constructs that are open -/

def ClassesInside (stack : List Construct) : Prop :=
  stack.Pairwise fun inner outer => outer = .classDecl → inner = .classDecl

theorem ClassesInside.head? {stack : List Construct} (h : ClassesInside stack)
    (hmem : .classDecl ∈ stack)
    : stack.head? = some .classDecl := by
  cases h with
  | nil => contradiction
  | cons hinner _ =>
    rcases List.mem_cons.mp hmem with rfl | hmem
    . rfl
    . rw [List.head?_cons, hinner _ hmem rfl]

theorem classesInside_of_nest {marks : List (Mark Construct)} {stack : List Construct}
    (h : nest mayOpen [] marks = some stack)
    : ClassesInside stack := by
  refine nest_induction h List.Pairwise.nil ?_ ?_
  . intro k stack hmay hinside
    refine List.Pairwise.cons ?_ hinside
    rintro outer hmem rfl
    cases k with
    | moduleDecl => simp [mayOpen, hinside.head? hmem] at hmay
    | classDecl => rfl
  . intro k stack hinside
    exact List.Pairwise.of_cons hinside

theorem exists_nest (h : WellNested u content) (line : Nat)
    : ∃ stack, nest mayOpen [] (marksTo u content line) = some stack := by
  have hsplit : Nested mayOpen
      (marksTo u content line ++ ((lines content).drop (line + 1)).flatMap (lineMarks u)) := by
    rw [marksTo, ← List.flatMap_append, List.take_append_drop]
    exact h
  exact hsplit.exists_nest

theorem enclosingZone_eq (h : WellNested u content) (line : Nat)
    : enclosingZone u content line
        = if 0 < depth .classDecl (marksTo u content line) then .classBody
          else if 0 < depth .moduleDecl (marksTo u content line) then .moduleBody
          else .moduleLevel := by
  obtain ⟨stack, hstack⟩ := exists_nest h line
  have hinside := classesInside_of_nest hstack
  rw [enclosingZone, depth_of_nest hstack, depth_of_nest hstack, hstack, Option.bind_some]
  split
  . next hclass => rw [hinside.head? (List.count_pos_iff.mp hclass)]; rfl
  . next hclass =>
    cases stack with
    | nil => rfl
    | cons k stack =>
      cases k with
      | moduleDecl => rw [if_pos (List.count_pos_iff.mpr List.mem_cons_self)]; rfl
      | classDecl => exact absurd (List.count_pos_iff.mpr List.mem_cons_self) hclass

/-! ## The zone -/

-- Completion takes a line for what it is if the line is in ASCII, has no dollar and no identifier
-- which is a keyword in other letters
theorem readMarks_eq_lineMarks {raw : Text} (hascii : ∀ c ∈ raw, c.toNat < 128)
    (hdollar : '$' ∉ raw)
    (hcase : ∀ w ∈ Words.words (isSvWordChar u) raw, markOf (w.map Char.toLower) = markOf w)
    : readMarks u raw = lineMarks u raw := by
  have hlower : ∀ c ∈ raw, u.isIdentifier c.toLower = u.isIdentifier c :=
    fun c hc => u.isIdentifier_toLower (hascii c hc)
  have hwords : Words.words u.isIdentifier raw = Words.words (isSvWordChar u) raw := by
    apply Words.words_congr
    intro c hc
    have hne : c ≠ '$' := fun heq => hdollar (heq ▸ hc)
    simp [isSvWordChar, hne]
  rw [readMarks, lineMarks, u.toLowercase_ascii hascii, Words.words_map hlower, hwords,
    List.filterMap_map]
  exact List.filterMap_congr hcase

theorem readMarksTo_eq_marksTo
    (h : ∀ raw ∈ (lines content).take (line + 1), readMarks u raw = lineMarks u raw)
    : readMarksTo u content line = marksTo u content line :=
  List.flatMap_congr h

theorem zone_of_read (h : WellNested u content)
    (hread : readMarksTo u content line = marksTo u content line)
    : determineZone u content line = enclosingZone u content line
        ↔
      Open .classDecl (marksTo u content line) ∨ Open .moduleDecl (marksTo u content line)
        ∨ ¬SeemsOpen u content line := by
  rw [determineZone_eq, enclosingZone_eq h, hread, ← depth_pos_iff, ← depth_pos_iff]
  by_cases hclass : 0 < depth .classDecl (marksTo u content line)
  . simp [hclass]
  . by_cases hmodule : 0 < depth .moduleDecl (marksTo u content line)
    . simp [hmodule]
    . by_cases hseems : SeemsOpen u content line <;> simp [hclass, hmodule, hseems]

/--
The zone is that of the innermost open construct if completion takes the lines for what they are and
a class or a module is open, or no line seems to open a module. If completion takes the lines for
what they are, it is so only then.
-/
theorem determineZone_eq_enclosingZone (h : WellNested u content) (line : Nat)
    : (readMarksTo u content line = marksTo u content line
          ∧ (Open .classDecl (marksTo u content line) ∨ Open .moduleDecl (marksTo u content line)
            ∨ ¬SeemsOpen u content line) →
        determineZone u content line = enclosingZone u content line)
      ∧ (determineZone u content line = enclosingZone u content line →
          Open .classDecl (marksTo u content line) ∨ Open .moduleDecl (marksTo u content line)
            ∨ ¬SeemsOpen u content line
            ∨ readMarksTo u content line ≠ marksTo u content line) := by
  constructor
  . rintro ⟨hread, hopen⟩
    exact (zone_of_read h hread).mpr hopen
  . intro hzone
    by_cases hread : readMarksTo u content line = marksTo u content line
    . have := (zone_of_read h hread).mp hzone
      tauto
    . tauto

def nestedClass : Text := "module m;\nclass c;\nendclass\nendmodule".toList

theorem determineZone_eq_enclosingZone_nestedClass
    : determineZone Unicode.ascii nestedClass 2 = enclosingZone Unicode.ascii nestedClass 2 := by
  refine (determineZone_eq_enclosingZone (by decide) 2).1 ⟨?_, by decide⟩
  apply readMarksTo_eq_marksTo
  intro raw hraw
  apply readMarks_eq_lineMarks
  all_goals
    revert raw
    decide

-- A word that completion takes for a keyword may make no difference
example
    : readMarksTo Unicode.ascii "class MODULE;\nendclass".toList 0
        ≠ marksTo Unicode.ascii "class MODULE;\nendclass".toList 0
      ∧ determineZone Unicode.ascii "class MODULE;\nendclass".toList 0
        = enclosingZone Unicode.ascii "class MODULE;\nendclass".toList 0 := by
  decide

theorem not_determineZone_eq_enclosingZone_module
    : ¬∀ content line, WellNested Unicode.ascii content →
        determineZone Unicode.ascii content line = enclosingZone Unicode.ascii content line := by
  intro h
  have hzone := h "module m;\nendmodule\n".toList 2 (by decide)
  revert hzone
  decide

end Lsp
end HdlGraph
