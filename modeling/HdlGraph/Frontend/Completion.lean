import HdlGraph.Library.Run
import HdlGraph.Library.Unicode
import HdlGraph.Library.Words

/-!
This module contains the completion of the language server: the zone that the cursor is in, and the
items of the zone that go on from what is left of the cursor.
-/

namespace HdlGraph
namespace Lsp

open Text

inductive CompletionZone where
  | moduleLevel
  | moduleBody
  | classBody
  deriving DecidableEq, Repr

-- The counters are `i32` in the source
structure Depths where
  moduleDepth : Int
  classDepth : Int
  deriving DecidableEq, Repr

def Depths.countWord (d : Depths) (w : Text) : Depths :=
  if w = "module".toList then { d with moduleDepth := d.moduleDepth + 1 }
  else if w = "endmodule".toList then { d with moduleDepth := max (d.moduleDepth - 1) 0 }
  else if w = "class".toList then { d with classDepth := d.classDepth + 1 }
  else if w = "endclass".toList then { d with classDepth := max (d.classDepth - 1) 0 }
  else d

variable (u : Unicode)

def Depths.countLine (d : Depths) (raw : Text) : Depths :=
  (Words.words u.isIdentifier (u.toLowercase raw)).foldl countWord d

def opensModuleOnly (l : Text) : Bool :=
  let lower := u.toLowercase l
  contains lower "module".toList && !contains lower "endmodule".toList

def determineZone (content : Text) (line : Nat) : CompletionZone :=
  let depths := ((lines content).take (line + 1)).foldl (Depths.countLine u) ⟨0, 0⟩
  if 0 < depths.classDepth then
    .classBody
  else if 0 < depths.moduleDepth then
    .moduleBody
  -- `0..=line.min(lines.len().saturating_sub(1))`
  else if (List.range (min line ((lines content).length - 1) + 1)).any fun idx =>
    (lines content)[idx]?.any (opensModuleOnly u) then
    .moduleBody
  else
    .moduleLevel

inductive CompletionItemKind where
  | keyword
  deriving DecidableEq, Repr

inductive InsertTextFormat where
  | plainText
  deriving DecidableEq, Repr

structure CompletionItem where
  label : Text
  kind : Option CompletionItemKind
  detail : Option Text
  insertTextFormat : Option InsertTextFormat
  deriving DecidableEq, Repr

def keywordItem (label : String) : CompletionItem where
  label := label.toList
  kind := some .keyword
  detail := some "SV keyword".toList
  insertTextFormat := some .plainText

def moduleLevelCompletions : List CompletionItem :=
  ["module", "endmodule", "input", "output", "inout", "wire", "reg", "logic", "assign", "always_ff",
    "always_comb"].map keywordItem

def moduleBodyCompletions : List CompletionItem :=
  ["endmodule", "wire", "reg", "logic", "assign", "always_ff", "always_comb", "if", "case", "for",
    "generate", "input",
    "output"].map keywordItem

def classBodyCompletions : List CompletionItem :=
  ["endclass", "function", "endfunction", "task", "endtask", "virtual", "new", "this", "super",
    "return", "extends",
    "localparam", "parameter"].map keywordItem

def zoneItems : CompletionZone → List CompletionItem
  | .moduleLevel => moduleLevelCompletions
  | .moduleBody => moduleBodyCompletions
  | .classBody => classBodyCompletions

def completion (content : Text) (line col : Nat) : List CompletionItem :=
  let items := zoneItems (determineZone u content line)
  let chars := (lines content)[line]?.getD []
  let typed :=
    if 0 < col ∧ col ≤ chars.length then
      let start := runStart u.isIdentifier chars (col - 1)
      if start < col then some ((chars.take col).drop start) else none
    else
      none
  match typed with
  | some p => items.filter fun item => startsWith item.label p
  | none => items

/-! ## The filter -/

def typedBefore (content : Text) (line col : Nat) : Text :=
  (((lines content)[line]?.getD []).take col).rtakeWhile u.isIdentifier

def itemsFrom (content : Text) (line col : Nat) : List CompletionItem :=
  (zoneItems (determineZone u content line)).filter fun item =>
    startsWith item.label (typedBefore u content line col)

theorem zoneItems_ne_nil (zone : CompletionZone) : zoneItems zone ≠ [] := by
  cases zone <;> exact List.cons_ne_nil _ _

theorem isWordChar_of_mem_zoneItems {zone : CompletionZone}
    : ∀ item ∈ zoneItems zone, ∀ c ∈ item.label, isWordChar c = true := by
  cases zone <;> decide

section

variable {u} {content : Text} {line col : Nat}

theorem completion_zero : completion u content line 0 = zoneItems (determineZone u content line) :=
  rfl

theorem completion_succ (h : col < ((lines content)[line]?.getD []).length)
    : completion u content line (col + 1)
        = (zoneItems (determineZone u content line)).filter fun item => startsWith item.label
            ((((lines content)[line]?.getD []).take col).rtakeWhile u.isIdentifier
              ++ [((lines content)[line]?.getD [])[col]]) := by
  generalize hchars : (lines content)[line]?.getD [] = chars at h ⊢
  have hstart : runStart u.isIdentifier chars col ≤ col := by
    rw [← start_runAround (Nat.le_of_lt h)]
    exact start_runAround_le (Nat.le_of_lt h)
  have hslice : (chars.take (col + 1)).drop (runStart u.isIdentifier chars col)
      = (chars.take col).rtakeWhile u.isIdentifier ++ [chars[col]] := by
    rw [List.take_succ_eq_append_getElem h,
      List.drop_append_of_le_length (by rwa [List.length_take_of_le (Nat.le_of_lt h)]),
      drop_runStart (Nat.le_of_lt h)]
  unfold completion
  rw [hchars]
  simp only [Nat.succ_pos, Nat.succ_le_of_lt h, Nat.add_sub_cancel, Nat.lt_succ_of_le hstart,
    and_self, if_true, hslice]

/--
Completion gives the items that go on from the identifier left of the cursor if and only if the
cursor is at the beginning of the line or there is such an identifier.
-/
theorem completion_eq_itemsFrom_iff (h : col ≤ ((lines content)[line]?.getD []).length)
    : completion u content line col = itemsFrom u content line col
        ↔ col = 0 ∨ ((lines content)[line]?.getD [])[col - 1]?.any u.isIdentifier = true := by
  cases col with
  | zero => simp [completion_zero, itemsFrom, typedBefore, startsWith]
  | succ col =>
    have hlt : col < ((lines content)[line]?.getD []).length := h
    rw [completion_succ hlt, itemsFrom, typedBefore, List.take_succ_eq_append_getElem hlt,
      Nat.add_sub_cancel, List.getElem?_eq_getElem hlt, Option.any_some]
    generalize ((lines content)[line]?.getD [])[col] = c
    by_cases hc : u.isIdentifier c = true
    . simp [List.rtakeWhile_concat_pos _ _ _ hc, hc]
    . rw [List.rtakeWhile_concat_neg _ _ _ hc]
      have hnone : ∀ item ∈ zoneItems (determineZone u content line),
          ¬startsWith item.label
              ((((lines content)[line]?.getD []).take col).rtakeWhile u.isIdentifier ++ [c])
            = true := by
        intro item hitem hstarts
        have hmem : c ∈ item.label :=
          (List.isPrefixOf_iff_prefix.mp hstarts).subset
          (List.mem_append_right _ List.mem_cons_self)
        exact hc (u.isIdentifier_of_isWordChar (isWordChar_of_mem_zoneItems item hitem c hmem))
      rw [List.filter_eq_nil_iff.mpr hnone]
      simpa [startsWith, hc] using (zoneItems_ne_nil _).symm

end

theorem completion_eq_itemsFrom_iff_end
    : completion Unicode.ascii "  end".toList 0 5 = itemsFrom Unicode.ascii "  end".toList 0 5
        ↔ 5 = 0 ∨ ((lines "  end".toList)[0]?.getD [])[5 - 1]?.any Unicode.ascii.isIdentifier
          = true :=
  completion_eq_itemsFrom_iff (by decide)

-- After a space there is nothing to filter by, but no item is left
theorem not_completion_eq_itemsFrom_space
    : ¬∀ content line col, col ≤ ((lines content)[line]?.getD []).length →
        completion Unicode.ascii content line col = itemsFrom Unicode.ascii content line col := by
  intro h
  have hle : 1 ≤ ((lines " ".toList)[0]?.getD []).length := by decide
  have hidentifier := (completion_eq_itemsFrom_iff hle).mp (h _ _ _ hle)
  revert hidentifier
  decide

end Lsp
end HdlGraph
