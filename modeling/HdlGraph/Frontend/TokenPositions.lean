import HdlGraph.Frontend.Lexemes

/-!
This module contains where the tokens of a document are: when their positions are right, and that
they can be read back from the relative positions that are sent.
-/

namespace HdlGraph
namespace Lsp

open Text Walk

def RawToken.position (t : RawToken) : LineCol := ⟨t.line, t.col⟩

def trulyPlaced (front : Text) : List Lexeme → List RawToken
  | [] => []
  | x :: xs => x.tokenAt (LineCol.behind front) ++ trulyPlaced (front ++ x.text) xs

def Lexeme.BreaksLine (x : Lexeme) : Prop := x.kind = .string ∧ '\n' ∈ x.text

instance (x : Lexeme) : Decidable x.BreaksLine := inferInstanceAs (Decidable (_ ∧ _))

section

variable {u : Unicode} {content : Text} {raw : List RawToken} {x : Lexeme} {xs : List Lexeme}
  {p : LineCol} {front : Text}

theorem raw_eq_of_scan {fuel : Nat} (h : scan u fuel content = some raw)
    : raw = placed ⟨0, 0⟩ (lexemes u content) := by
  have hnone : ∀ x ∈ lexemes u content, x.kind ≠ .backtick := by
    intro x hx hkind
    have hreaches : ∃ st, Relation.ReflTransGen (Goes (scanStep u content)) scanStart st
        ∧ scanStep u content st = .inr st :=
      reaches_backtick ⟨x, hx, hkind⟩
    obtain ⟨st, hreach, hfixed⟩ := hreaches
    obtain ⟨fuel', hfuel'⟩ := climb_of_goes hreach h
    rw [climb_of_fixed hfixed] at hfuel'
    contradiction
  exact (ends_of_climb h).unique (ends_of_climb (scan_of_noBacktick hnone))

theorem leave_le (x : Lexeme) (p : LineCol)
    : (x.leave p).line ≤ p.line + x.text.length ∧ (x.leave p).col ≤ p.col + x.text.length := by
  unfold Lexeme.leave
  split
  . exact ⟨Nat.le_add_right _ _, Nat.le_refl _⟩
  . exact LineCol.after_le p x.text

-- No counter passes the number of characters
theorem bounded_of_mem_placed {t : RawToken} (h : t ∈ placed p xs)
    : t.line ≤ p.line + (xs.flatMap Lexeme.text).length
        ∧ t.col ≤ p.col + (xs.flatMap Lexeme.text).length
        ∧ t.length ≤ (xs.flatMap Lexeme.text).length := by
  induction xs generalizing p with
  | nil => contradiction
  | cons x xs ih =>
    rw [List.flatMap_cons, List.length_append]
    rcases List.mem_append.mp h with h | h
    . unfold Lexeme.tokenAt at h
      obtain ⟨tokenType, _, rfl⟩ := List.mem_map.mp h
      dsimp only
      omega
    . have hleave := leave_le x p
      have := ih h
      omega

theorem bounded_of_scan {fuel : Nat} (h : scan u fuel content = some raw) {t : RawToken}
    (ht : t ∈ raw)
    : t.line ≤ content.length ∧ t.col ≤ content.length ∧ t.length ≤ content.length := by
  rw [raw_eq_of_scan h] at ht
  have hbounded := bounded_of_mem_placed ht
  simpa only [flatMap_text_lexemes, Nat.zero_add] using hbounded

/-! ## The order -/

theorem before_leave (h : x.text ≠ []) (p : LineCol) : p.Before (x.leave p) := by
  unfold Lexeme.leave
  split
  . exact .inr ⟨rfl, Nat.lt_add_of_pos_right (List.length_pos_iff.mpr h)⟩
  . exact LineCol.before_after h p

theorem position_of_mem_tokenAt {t : RawToken} (h : t ∈ x.tokenAt p) : t.position = p := by
  unfold Lexeme.tokenAt at h
  obtain ⟨tokenType, _, rfl⟩ := List.mem_map.mp h
  rfl

theorem notAfter_of_mem_placed (hxs : ∀ x ∈ xs, x.text ≠ []) {t : RawToken} (ht : t ∈ placed p xs)
    : p.NotAfter t.position := by
  induction xs generalizing p with
  | nil => contradiction
  | cons x xs ih =>
    rw [List.forall_mem_cons] at hxs
    rcases List.mem_append.mp ht with ht | ht
    . rw [position_of_mem_tokenAt ht]
      exact .inr ⟨rfl, Nat.le_refl _⟩
    . exact ((before_leave hxs.1 p).trans_notAfter (ih hxs.2 ht)).notAfter

theorem placed_pairwise (hxs : ∀ x ∈ xs, x.text ≠ []) (p : LineCol)
    : (placed p xs).Pairwise fun t t' => t.position.Before t'.position := by
  induction xs generalizing p with
  | nil => exact .nil
  | cons x xs ih =>
    rw [List.forall_mem_cons] at hxs
    rw [placed, List.pairwise_append]
    refine ⟨?_, ih hxs.2 _, ?_⟩
    . unfold Lexeme.tokenAt
      cases x.tokenType? <;> simp
    . intro t ht t' ht'
      rw [position_of_mem_tokenAt ht]
      exact (before_leave hxs.1 p).trans_notAfter (notAfter_of_mem_placed hxs.2 ht')

/-! ## The positions -/

theorem line_behind_append (front s : Text)
    : (LineCol.behind (front ++ s)).line = (LineCol.behind front).line + s.count '\n' :=
  List.count_append

theorem line_after (p : LineCol) (s : Text) : (p.after s).line = p.line + s.count '\n' := by
  induction s generalizing p with
  | nil => rfl
  | cons c s ih =>
    rw [LineCol.after_cons, ih, List.count_cons]
    by_cases hc : c = '\n' <;> simp [LineCol.next, hc, Nat.add_assoc, Nat.add_comm 1]

theorem placed_eq_of_behind (h : p.line < (LineCol.behind front).line)
    : placed p xs = trulyPlaced front xs ↔ ∀ y ∈ xs, y.tokenType? = none := by
  induction xs generalizing p front with
  | nil => simp [placed, trulyPlaced]
  | cons x xs ih =>
    have hleave : (x.leave p).line < (LineCol.behind (front ++ x.text)).line := by
      rw [line_behind_append, Lexeme.leave]
      split
      . exact Nat.lt_add_right _ h
      . rw [line_after]
        exact Nat.add_lt_add_right h _
    rw [placed, trulyPlaced, List.forall_mem_cons]
    cases htype : x.tokenType? with
    | none => simp [Lexeme.tokenAt, htype, ih hleave]
    | some tokenType =>
      have hne : p.line ≠ (LineCol.behind front).line := Nat.ne_of_lt h
      simp [Lexeme.tokenAt, htype, hne]

theorem placed_eq_iff
    : placed (LineCol.behind front) xs = trulyPlaced front xs
        ↔ xs.Pairwise fun x y => x.BreaksLine → y.tokenType? = none := by
  induction xs generalizing front with
  | nil => simp [placed, trulyPlaced]
  | cons x xs ih =>
    rw [placed, trulyPlaced, List.append_cancel_left_eq, List.pairwise_cons]
    by_cases hbreaks : x.BreaksLine
    . have hline : (x.leave (LineCol.behind front)).line
          < (LineCol.behind (front ++ x.text)).line := by
        rw [line_behind_append, Lexeme.leave, if_pos hbreaks.1]
        exact Nat.lt_add_of_pos_right (List.count_pos_iff.mpr hbreaks.2)
      rw [placed_eq_of_behind hline]
      simp only [hbreaks, true_implies]
      constructor
      . intro hnone
        exact ⟨hnone, List.pairwise_of_forall_mem_list fun y _ z hz _ => hnone z hz⟩
      . exact And.left
    . have hleave : x.leave (LineCol.behind front) = LineCol.behind (front ++ x.text) := by
        rw [Lexeme.leave]
        split
        . next hkind =>
          have hnewline : '\n' ∉ x.text := fun hmem => hbreaks ⟨hkind, hmem⟩
          rw [LineCol.behind_append hnewline]
        . rw [LineCol.after_behind]
      rw [hleave, ih]
      simp [hbreaks]

end

/-- The tokens stand in order, each at the line and column of its first character. -/
structure PositionsRight (u : Unicode) (content : Text) (raw : List RawToken) : Prop where
  ordered : raw.Pairwise fun t t' => t.position.Before t'.position
  placed : raw = trulyPlaced [] (lexemes u content)

/--
The positions of the tokens are right if and only if no comment, string or keyword comes after a
string literal that goes on over a line break.
-/
theorem positionsRight_iff {u : Unicode} {fuel : Nat} {content : Text} {raw : List RawToken}
    (h : scan u fuel content = some raw)
    : PositionsRight u content raw ↔ (lexemes u content).Pairwise fun x y => x.BreaksLine →
        y.tokenType? = none := by
  have hplaced : placed (LineCol.behind []) (lexemes u content) = trulyPlaced [] (lexemes u content)
      ↔ (lexemes u content).Pairwise fun x y => x.BreaksLine → y.tokenType? = none := placed_eq_iff
  rw [← hplaced, raw_eq_of_scan h]
  constructor
  . exact PositionsRight.placed
  . intro heq
    exact ⟨placed_pairwise (fun x hx => text_ne_nil_of_mem hx) _, heq⟩

theorem positionsRight_iff_block
    : PositionsRight Unicode.ascii "/* a\n*/ // b".toList [⟨0, 0, 7, 0⟩, ⟨1, 3, 4, 0⟩]
        ↔ (lexemes Unicode.ascii "/* a\n*/ // b".toList).Pairwise fun x y => x.BreaksLine →
          y.tokenType? = none := by
  have hnone : ∀ x ∈ lexemes Unicode.ascii "/* a\n*/ // b".toList, x.kind ≠ .backtick := by decide
  have hplaced : placed ⟨0, 0⟩ (lexemes Unicode.ascii "/* a\n*/ // b".toList)
      = [⟨0, 0, 7, 0⟩, ⟨1, 3, 4, 0⟩] := by decide
  rw [← hplaced]
  exact positionsRight_iff (scan_of_noBacktick hnone)

def escapedBreak : Text := ['"', '\\', '\n', '"', '/', '/']

theorem not_positionsRight_escapedBreak
    : ¬∀ content fuel raw, scan Unicode.ascii fuel content = some raw →
        PositionsRight Unicode.ascii content raw := by
  intro h
  have hnone : ∀ x ∈ lexemes Unicode.ascii escapedBreak, x.kind ≠ .backtick := by decide
  have hright :=
    (positionsRight_iff (scan_of_noBacktick hnone)).mp (h _ _ _ (scan_of_noBacktick hnone))
  revert hright
  decide

/-! ## The relative positions -/

def SemanticToken.entry (t : SemanticToken) : LineCol.Delta × Nat × Nat :=
  (⟨t.deltaLine, t.deltaStart⟩, t.length, t.tokenType)

def decodeTokens (tokens : List SemanticToken) : List RawToken :=
  (LineCol.decode ⟨0, 0⟩ (tokens.map SemanticToken.entry)).map fun (p, length, tokenType) =>
    ⟨p.line, p.col, length, tokenType⟩

def RawToken.entry (t : RawToken) : LineCol × Nat × Nat := (t.position, t.length, t.tokenType)

theorem entry_encodeStep (st : EncodeLoop) (t : RawToken)
    : (encodeStep st t).result.map SemanticToken.entry
        = st.result.map SemanticToken.entry
          ++ [(LineCol.delta ⟨st.prevLine, st.prevCol⟩ t.position, t.length, t.tokenType)] := by
  rw [encodeStep, List.map_append, List.append_cancel_left_eq]
  unfold LineCol.delta RawToken.position
  by_cases hline : t.line = st.prevLine <;> simp [SemanticToken.entry, hline]

theorem entry_foldl_encodeStep (raw : List RawToken) (st : EncodeLoop)
    : (raw.foldl encodeStep st).result.map SemanticToken.entry
        = st.result.map SemanticToken.entry ++ LineCol.encode ⟨st.prevLine, st.prevCol⟩
          (raw.map RawToken.entry) := by
  induction raw generalizing st with
  | nil => exact (List.append_nil _).symm
  | cons t raw ih =>
    rw [List.foldl_cons, ih, entry_encodeStep, List.append_assoc]
    rfl

theorem entry_encode (raw : List RawToken)
    : (encode raw).map SemanticToken.entry = LineCol.encode ⟨0, 0⟩ (raw.map RawToken.entry) :=
  entry_foldl_encodeStep raw ⟨[], 0, 0⟩

theorem decodeTokens_encode {raw : List RawToken}
    (h : (⟨0, 0⟩ :: raw.map RawToken.position).IsChain LineCol.NotAfter)
    : decodeTokens (encode raw) = raw := by
  have hchain : (⟨0, 0⟩ :: (raw.map RawToken.entry).map Prod.fst).IsChain LineCol.NotAfter := by
    rw [List.map_map]
    exact h
  rw [decodeTokens, entry_encode, LineCol.decode_encode hchain, List.map_map]
  exact List.map_id raw

/-- No difference is cut off, and the tokens are what is read back. -/
structure EncodesExactly (raw : List RawToken) (tokens : List SemanticToken) : Prop where
  ordered : (⟨0, 0⟩ :: raw.map RawToken.position).IsChain LineCol.NotAfter
  decoded : decodeTokens tokens = raw

theorem tokenizeSemantic_encodesExactly {u : Unicode} {fuel : Nat} {content : Text}
    {raw : List RawToken} (h : scan u fuel content = some raw)
    : ∃ tokens, tokenizeSemantic u fuel content = some tokens ∧ EncodesExactly raw tokens := by
  have hpairwise : (raw.map RawToken.position).Pairwise LineCol.Before := by
    rw [List.pairwise_map, raw_eq_of_scan h]
    exact placed_pairwise (fun x hx => text_ne_nil_of_mem hx) _
  have hchain := LineCol.isChain_of_pairwise hpairwise
  refine ⟨encode raw, ?_, hchain, decodeTokens_encode hchain⟩
  rw [tokenizeSemantic, h, Option.map_some]

theorem tokenizeSemantic_encodesExactly_escapedBreak
    : ∃ tokens, tokenizeSemantic Unicode.ascii 7 escapedBreak = some tokens
        ∧ EncodesExactly [⟨0, 0, 4, 2⟩, ⟨0, 4, 2, 0⟩] tokens := by
  have hnone : ∀ x ∈ lexemes Unicode.ascii escapedBreak, x.kind ≠ .backtick := by decide
  have hplaced : placed ⟨0, 0⟩ (lexemes Unicode.ascii escapedBreak)
      = [⟨0, 0, 4, 2⟩, ⟨0, 4, 2, 0⟩] := by decide
  rw [← hplaced]
  exact tokenizeSemantic_encodesExactly (scan_of_noBacktick hnone)

end Lsp
end HdlGraph
