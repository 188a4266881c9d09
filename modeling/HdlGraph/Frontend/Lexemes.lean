import HdlGraph.Frontend.SemanticTokens

/-!
This module contains the lexemes of a document, that the scan of the tokenizer goes from one to the
next, and when it ends.
-/

namespace HdlGraph
namespace Lsp

open Text Walk

variable (u : Unicode)

inductive LexKind where
  | comment
  | string
  | number
  | word
  -- A backtick where the document is neither in a comment nor in a string
  | backtick
  | other
  deriving DecidableEq, Repr

structure Lexeme where
  kind : LexKind
  text : Text
  deriving DecidableEq, Repr

-- How long a block comment is behind its first two characters; without an end it leaves the last
-- character
def blockCommentLength : Text → Nat
  | c :: d :: rest => if c = '*' ∧ d = '/' then 2 else blockCommentLength (d :: rest) + 1
  | _ => 0

def stringBodyLength : Text → Nat
  | [] => 0
  | c :: rest =>
    if c = '"' ∨ c = '\n' then 0
    else if c = '\\' then
      match rest with
      | [] => 1
      | _ :: rest => stringBodyLength rest + 2
    else stringBodyLength rest + 1

def stringLength (s : Text) : Nat :=
  let body := stringBodyLength s
  if (s.drop body).head? = some '"' then body + 1 else body

def lexemeAt (s : Text) : LexKind × Nat :=
  match s with
  | [] => (.other, 0)
  | c :: rest =>
    if c = '/' ∧ rest.head? = some '*' then (.comment, blockCommentLength rest.tail + 2)
    else if c = '/' ∧ rest.head? = some '/' then (.comment, (s.takeWhile (· ≠ '\n')).length)
    else if c = '"' then (.string, stringLength rest + 1)
    else if c.isDigit then (.number, (s.takeWhile (isNumberChar u)).length)
    else if c = '`' then (.backtick, 1)
    else if isWordStart c then (.word, (s.takeWhile (isWordPart u)).length)
    else (.other, 1)

def lexemeOf (s : Text) : Lexeme := ⟨(lexemeAt u s).1, s.take (lexemeAt u s).2⟩

def lexemes (s : Text) : List Lexeme := go 0 s
where
  go : Nat → Text → List Lexeme
  | _, [] => []
  | skip + 1, _ :: cs => go skip cs
  | 0, c :: cs =>
    let x := lexemeOf u (c :: cs)
    x :: go (x.text.length - 1) cs

def Lexeme.tokenType? (x : Lexeme) : Option Nat :=
  match x.kind with
  | .comment => some 0
  | .word => if x.text ∈ keywords then some 1 else none
  | .string => some 2
  | _ => none

def Lexeme.tokenAt (x : Lexeme) (p : LineCol) : List RawToken :=
  x.tokenType?.toList.map fun tokenType => ⟨p.line, p.col, x.text.length, tokenType⟩

-- Where the scan takes itself to be behind a lexeme: in a string it does not count lines
def Lexeme.leave (x : Lexeme) (p : LineCol) : LineCol :=
  if x.kind = .string then ⟨p.line, p.col + x.text.length⟩ else p.after x.text

section

variable {u} {s : Text} {c : Char} {cur : Cursor}

theorem stringBodyLength_le (s : Text) : stringBodyLength s ≤ s.length := by
  fun_induction stringBodyLength s <;> simp only [List.length_cons, List.length_nil] at * <;> omega

theorem blockCommentLength_le (s : Text) : blockCommentLength s ≤ s.length := by
  fun_induction blockCommentLength s with
  | case1 => simp
  | case2 c d rest _ ih =>
    rw [List.length_cons]
    omega
  | case3 => exact Nat.zero_le _

theorem stringLength_le (s : Text) : stringLength s ≤ s.length := by
  have hbody := stringBodyLength_le s
  unfold stringLength
  dsimp
  split
  . next hquote =>
    have hne : s.drop (stringBodyLength s) ≠ [] := by
      intro hnil
      simp [hnil] at hquote
    have := List.length_pos_iff.mpr hne
    rw [List.length_drop] at this
    omega
  . exact hbody

theorem isNumberChar_of_isDigit (h : c.isDigit = true) : isNumberChar u c = true := by
  have hword : isWordChar c = true := by simp [isWordChar, Char.isAlphanum, h]
  have := toNat_of_isWordChar hword
  simp [isNumberChar, u.isAlphanumeric_ascii c (by omega), Char.isAlphanum, h]

theorem isWordPart_of_isWordStart (h : isWordStart c = true) (hc : c ≠ '`')
    : isWordPart u c = true := by
  simp only [isWordStart, hc, decide_false, Bool.or_false, Bool.or_eq_true, decide_eq_true_eq] at h
  rcases h with (h | rfl) | rfl
  . have := toNat_of_isWordChar (isWordChar_of_isAlpha h)
    simp [isWordPart, u.isAlphanumeric_ascii c (by omega), Char.isAlphanum, h]
  . simp [isWordPart]
  . simp [isWordPart]

theorem length_takeWhile_pos {p : Char → Bool} (h : p c = true)
    : 0 < ((c :: s).takeWhile p).length := by
  rw [List.takeWhile_cons_of_pos h]
  exact Nat.succ_pos _

variable (u) in
theorem lexemeAt_pos (c : Char) (s : Text) : 0 < (lexemeAt u (c :: s)).2 := by
  rw [lexemeAt]
  split
  . exact Nat.succ_pos _
  . split
    . next hc => exact length_takeWhile_pos (by simp [hc.1])
    . split
      . exact Nat.succ_pos _
      . split
        . next hc => exact length_takeWhile_pos (isNumberChar_of_isDigit hc)
        . split
          . exact Nat.one_pos
          . next hne =>
            split
            . next hc => exact length_takeWhile_pos (isWordPart_of_isWordStart hc hne)
            . exact Nat.one_pos

variable (u) in
theorem lexemeAt_le (s : Text) : (lexemeAt u s).2 ≤ s.length := by
  cases s with
  | nil => exact Nat.le_refl _
  | cons c rest =>
    have htake (p : Char → Bool) : ((c :: rest).takeWhile p).length ≤ (c :: rest).length :=
      (List.takeWhile_prefix p).length_le
    rw [lexemeAt]
    split
    . next hc =>
      have hle := blockCommentLength_le rest.tail
      have hpos : 0 < rest.length := by
        cases rest with
        | nil => simp at hc
        | cons d rest => exact Nat.succ_pos _
      rw [List.length_tail] at hle
      rw [List.length_cons]
      omega
    . split
      . exact htake _
      . split
        . exact Nat.succ_le_succ (stringLength_le rest)
        . split
          . exact htake _
          . split
            . simp
            . split
              . exact htake _
              . simp

variable (u) in
theorem length_lexemeOf (s : Text) : (lexemeOf u s).text.length = (lexemeAt u s).2 :=
  List.length_take_of_le (lexemeAt_le u s)

variable (u) in
theorem length_lexemeOf_pos (c : Char) (s : Text) : 0 < (lexemeOf u (c :: s)).text.length := by
  rw [length_lexemeOf]
  exact lexemeAt_pos u c s

variable (u) in
theorem lexemeOf_append_drop (s : Text)
    : (lexemeOf u s).text ++ s.drop (lexemeOf u s).text.length = s := by
  rw [length_lexemeOf, lexemeOf, List.take_append_drop]

variable (u) in
theorem lexemes_cons (c : Char) (s : Text)
    : lexemes u (c :: s)
        = lexemeOf u (c :: s) :: lexemes u ((c :: s).drop (lexemeOf u (c :: s)).text.length) := by
  have hgo : ∀ (skip : Nat) (s : Text), lexemes.go u skip s = lexemes u (s.drop skip) := by
    intro skip s
    induction s generalizing skip with
    | nil => cases skip <;> rfl
    | cons d s ih =>
      cases skip with
      | zero => rfl
      | succ skip => exact ih skip
  obtain ⟨n, hn⟩ := Nat.exists_eq_add_of_lt (length_lexemeOf_pos u c s)
  rw [lexemes, lexemes.go, hgo, hn, Nat.zero_add, Nat.add_sub_cancel, List.drop_succ_cons]

variable (u) in
theorem lexemes_induction {motive : Text → Prop} (nil : motive [])
    (cons : ∀ c s, motive ((c :: s).drop (lexemeOf u (c :: s)).text.length) → motive (c :: s))
    (s : Text)
    : motive s := by
  match s with
  | [] => exact nil
  | c :: s =>
    exact cons c s (lexemes_induction nil cons ((c :: s).drop (lexemeOf u (c :: s)).text.length))
termination_by s.length
decreasing_by
  have := length_lexemeOf_pos u c s
  simp only [List.length_drop, List.length_cons]
  omega

theorem text_ne_nil_of_mem {x : Lexeme} (h : x ∈ lexemes u s) : x.text ≠ [] := by
  induction s using lexemes_induction u with
  | nil => contradiction
  | cons c s ih =>
    rw [lexemes_cons, List.mem_cons] at h
    rcases h with rfl | h
    . exact List.length_pos_iff.mp (length_lexemeOf_pos u c s)
    . exact ih h

variable (u) in
theorem flatMap_text_lexemes (s : Text) : (lexemes u s).flatMap Lexeme.text = s := by
  induction s using lexemes_induction u with
  | nil => rfl
  | cons c s ih => rw [lexemes_cons, List.flatMap_cons, ih, lexemeOf_append_drop]

/-! ## The inner loops -/

theorem scanWhile_eq (p : Char → Bool) (s : Text) (cur : Cursor)
    : scanWhile p s cur = cur.skip (s.takeWhile p).length := by
  induction s generalizing cur with
  | nil => rfl
  | cons c s ih =>
    rw [scanWhile]
    split
    . next hc =>
      rw [ih, List.takeWhile_cons_of_pos hc]
      simp only [Cursor.skip, List.length_cons, Nat.add_assoc, Nat.add_comm 1]
    . next hc => rw [List.takeWhile_cons_of_neg hc]; rfl

theorem skip_skip (cur : Cursor) (m n : Nat) : (cur.skip m).skip n = cur.skip (n + m) := by
  simp only [Cursor.skip, Nat.add_assoc, Nat.add_comm m]

theorem scanString_eq (s : Text) (cur : Cursor)
    : scanString s cur = cur.skip (stringBodyLength s) := by
  fun_induction scanString s cur with
  | case1 => rfl
  | case2 cur c rest hc =>
    unfold stringBodyLength
    rw [if_pos hc]
    rfl
  | case3 => rfl
  | case4 cur d rest hc ih =>
    unfold stringBodyLength
    rw [ih, skip_skip, if_neg hc, if_pos rfl]
  | case5 cur c rest hc hslash ih =>
    unfold stringBodyLength
    rw [ih, skip_skip, if_neg hc, if_neg hslash]

theorem scanBlockComment_eq (s : Text) (cur : Cursor)
    : (scanBlockComment s cur).i = cur.i + blockCommentLength s
        ∧ (scanBlockComment s cur).position
          = cur.position.after (s.take (blockCommentLength s)) := by
  fun_induction scanBlockComment s cur with
  | case1 c d rest cur hc =>
    obtain ⟨rfl, rfl⟩ := hc
    rw [blockCommentLength, if_pos ⟨rfl, rfl⟩]
    exact ⟨rfl, rfl⟩
  | case2 c d rest cur hc ih =>
    rw [blockCommentLength, if_neg hc, ih.1, ih.2, List.take_succ_cons, LineCol.after_cons]
    unfold LineCol.next
    split
    . exact ⟨by simp [Cursor.newline, Nat.add_assoc, Nat.add_comm 1], rfl⟩
    . exact ⟨by simp [Cursor.skip, Nat.add_assoc, Nat.add_comm 1], rfl⟩
  | case3 s cur h =>
    have hzero : blockCommentLength s = 0 := by
      unfold blockCommentLength
      split
      . next c d rest => exact (h c d rest rfl).elim
      . rfl
    rw [hzero]
    exact ⟨rfl, rfl⟩

/-! ## A round of the scan -/

structure Takes (x : Lexeme) (st st' : ScanLoop) : Prop where
  i_eq : st'.cursor.i = st.cursor.i + x.text.length
  position_eq : st'.cursor.position = x.leave st.cursor.position
  raw_eq : st'.raw = st.raw ++ x.tokenAt st.cursor.position

theorem position_skip {text : Text} (h : '\n' ∉ text) (cur : Cursor)
    : (cur.skip text.length).position = cur.position.after text :=
  (LineCol.after_of_notMem h cur.position).symm

theorem takes_skip {x : Lexeme} (hkind : x.kind ≠ .string) (hnone : x.tokenType? = none)
    (hline : '\n' ∉ x.text) (st : ScanLoop)
    : Takes x st { st with cursor := st.cursor.skip x.text.length } where
  i_eq := rfl
  position_eq := by rw [Lexeme.leave, if_neg hkind, position_skip hline]
  raw_eq := by simp [Lexeme.tokenAt, hnone]

theorem takes_push {x : Lexeme} {tokenType : Nat} (htype : x.tokenType? = some tokenType)
    (st : ScanLoop) {cur : Cursor} (hi : cur.i = st.cursor.i + x.text.length)
    (hposition : cur.position = x.leave st.cursor.position)
    : Takes x st (st.push cur tokenType) where
  i_eq := hi
  position_eq := hposition
  raw_eq := by simp [Lexeme.tokenAt, htype, ScanLoop.push, hi, Cursor.position]

theorem newline_notMem_takeWhile {p : Char → Bool} (h : p '\n' = false) (s : Text)
    : '\n' ∉ s.takeWhile p := by
  intro hmem
  rw [List.mem_takeWhile_imp hmem] at h
  contradiction

theorem take_takeWhile (p : Char → Bool) (s : Text)
    : s.take (s.takeWhile p).length = s.takeWhile p :=
  (List.prefix_iff_eq_take.mp (List.takeWhile_prefix p)).symm

variable (u) in
theorem isNumberChar_newline : isNumberChar u '\n' = false := by
  rw [isNumberChar, u.isAlphanumeric_ascii _ (by decide)]
  decide

variable (u) in
theorem isWordPart_newline : isWordPart u '\n' = false := by
  rw [isWordPart, u.isAlphanumeric_ascii _ (by decide)]
  decide

theorem takes_blockComment (st : ScanLoop) (rest : Text)
    : Takes ⟨.comment, ('/' :: '*' :: rest).take (blockCommentLength rest + 2)⟩ st
        (st.push (scanBlockComment rest (st.cursor.skip 2)) 0) := by
  have ⟨hi, hposition⟩ := scanBlockComment_eq rest (st.cursor.skip 2)
  have hlength : (('/' :: '*' :: rest).take (blockCommentLength rest + 2)).length
      = blockCommentLength rest + 2 :=
    List.length_take_of_le (Nat.add_le_add_right (blockCommentLength_le rest) 2)
  apply takes_push rfl st
  . rw [hlength, hi]
    simp only [Cursor.skip]
    omega
  . rw [hposition]
    rfl

theorem takes_lineComment (st : ScanLoop) (s : Text)
    : Takes ⟨.comment, s.takeWhile (· ≠ '\n')⟩ st
        (st.push (scanWhile (· ≠ '\n') s st.cursor) 0) := by
  rw [scanWhile_eq]
  apply takes_push rfl st rfl
  rw [Lexeme.leave, if_neg (by simp), position_skip (newline_notMem_takeWhile (by simp) _)]

theorem takes_string {content : Text} {st : ScanLoop} {rest : Text}
    (h : content.drop st.cursor.i = '"' :: rest)
    : Takes ⟨.string, ('"' :: rest).take (stringLength rest + 1)⟩ st
        (st.push
          (if content[(scanString rest (st.cursor.skip 1)).i]? = some '"' then
            (scanString rest (st.cursor.skip 1)).skip 1
          else
            scanString rest (st.cursor.skip 1)) 2) := by
  have hlength : (('"' :: rest).take (stringLength rest + 1)).length = stringLength rest + 1 :=
    List.length_take_of_le (Nat.succ_le_succ (stringLength_le rest))
  have hquote : content[(st.cursor.skip (stringBodyLength rest + 1)).i]?
      = (rest.drop (stringBodyLength rest)).head? := by
    have hdrop := List.drop_drop (i := stringBodyLength rest + 1) (j := st.cursor.i) (l := content)
    rw [h, List.drop_succ_cons] at hdrop
    rw [hdrop, List.head?_drop]
    rfl
  have hcursor : (if content[(scanString rest (st.cursor.skip 1)).i]? = some '"' then
        (scanString rest (st.cursor.skip 1)).skip 1
      else
        scanString rest (st.cursor.skip 1)) = st.cursor.skip (stringLength rest + 1) := by
    rw [scanString_eq, skip_skip, hquote, stringLength]
    split
    . rw [skip_skip, Nat.add_comm 1]
    . rfl
  rw [hcursor]
  apply takes_push rfl st
  . rw [hlength]
    rfl
  . rw [Lexeme.leave, if_pos rfl, hlength]
    rfl

variable (u) in
theorem takes_number (st : ScanLoop) (s : Text)
    : Takes ⟨.number, s.takeWhile (isNumberChar u)⟩ st
        { st with cursor := scanWhile (isNumberChar u) s st.cursor } := by
  rw [scanWhile_eq]
  exact takes_skip (by simp) rfl (newline_notMem_takeWhile (isNumberChar_newline u) _) st

variable (u) in
theorem takes_word (st : ScanLoop) (s : Text)
    : Takes ⟨.word, s.takeWhile (isWordPart u)⟩ st
        (if s.take ((scanWhile (isWordPart u) s st.cursor).i - st.cursor.i) ∈ keywords then
          st.push (scanWhile (isWordPart u) s st.cursor) 1
        else
          { st with cursor := scanWhile (isWordPart u) s st.cursor }) := by
  have hnewline := newline_notMem_takeWhile (isWordPart_newline u) s
  have hword : s.take ((scanWhile (isWordPart u) s st.cursor).i - st.cursor.i)
      = s.takeWhile (isWordPart u) := by
    rw [scanWhile_eq, Cursor.skip, Nat.add_sub_cancel_left, take_takeWhile]
  rw [hword, scanWhile_eq]
  split
  . next hkeyword =>
    apply takes_push (by simp [Lexeme.tokenType?, hkeyword]) st rfl
    rw [Lexeme.leave, if_neg (by simp), position_skip hnewline]
  . next hkeyword => exact takes_skip (by simp) (by simp [Lexeme.tokenType?, hkeyword]) hnewline st

variable (u) in
theorem scanStep_takes {content : Text} {st : ScanLoop} {rest : Text}
    (h : content.drop st.cursor.i = c :: rest) (hkind : (lexemeAt u (c :: rest)).1 ≠ .backtick)
    : ∃ st', scanStep u content st = .inr st' ∧ Takes (lexemeOf u (c :: rest)) st st' := by
  have htick : c ≠ '`' := by
    rintro rfl
    simp [lexemeAt] at hkind
  unfold scanStep
  simp only [h]
  split
  . next hc =>
    have hlex : lexemeOf u (c :: rest) = ⟨.other, ['\n']⟩ := by
      simp [hc, lexemeOf, lexemeAt, isWordStart]
    refine ⟨_, rfl, ?_⟩
    rw [hlex]
    exact ⟨rfl, rfl, (List.append_nil _).symm⟩
  . next hline =>
    have hother : Takes ⟨.other, [c]⟩ st { st with cursor := st.cursor.skip 1 } :=
      takes_skip (by simp) rfl (by simpa using Ne.symm hline) st
    split
    . next hc =>
      have hlex : lexemeOf u (c :: rest) = ⟨.other, [c]⟩ := by
        simp [hc, lexemeOf, lexemeAt, isWordStart]
      exact ⟨_, rfl, hlex ▸ hother⟩
    . split
      . next hblock =>
        obtain ⟨rfl, hhead⟩ := hblock
        obtain ⟨rest, rfl⟩ := List.head?_eq_some_iff.mp hhead
        exact ⟨_, rfl, takes_blockComment st rest⟩
      . next hblock =>
        split
        . next hlineComment =>
          have hlex : lexemeOf u (c :: rest) = ⟨.comment, (c :: rest).takeWhile (· ≠ '\n')⟩ := by
            rw [lexemeOf, lexemeAt, if_neg hblock, if_pos hlineComment, take_takeWhile]
          exact ⟨_, rfl, hlex ▸ takes_lineComment st (c :: rest)⟩
        . next hlineComment =>
          split
          . next hquote =>
            subst hquote
            have hlex : lexemeOf u ('"' :: rest)
                = ⟨.string, ('"' :: rest).take (stringLength rest + 1)⟩ := by
              rw [lexemeOf, lexemeAt, if_neg hblock, if_neg hlineComment, if_pos rfl]
            exact ⟨_, rfl, hlex ▸ takes_string h⟩
          . next hquote =>
            split
            . next hdigit =>
              have hlex : lexemeOf u (c :: rest)
                  = ⟨.number, (c :: rest).takeWhile (isNumberChar u)⟩ := by
                rw [lexemeOf, lexemeAt, if_neg hblock, if_neg hlineComment, if_neg hquote,
                  if_pos hdigit, take_takeWhile]
              exact ⟨_, rfl, hlex ▸ takes_number u st (c :: rest)⟩
            . next hdigit =>
              split
              . next hword =>
                have hlex : lexemeOf u (c :: rest)
                    = ⟨.word, (c :: rest).takeWhile (isWordPart u)⟩ := by
                  rw [lexemeOf, lexemeAt, if_neg hblock, if_neg hlineComment, if_neg hquote,
                    if_neg hdigit, if_neg htick, if_pos hword, take_takeWhile]
                exact ⟨_, rfl, hlex ▸ takes_word u st (c :: rest)⟩
              . next hword =>
                have hlex : lexemeOf u (c :: rest) = ⟨.other, [c]⟩ := by
                  rw [lexemeOf, lexemeAt, if_neg hblock, if_neg hlineComment, if_neg hquote,
                    if_neg hdigit, if_neg htick, if_neg hword]
                  rfl
                exact ⟨_, rfl, hlex ▸ hother⟩

variable (u) in
theorem scanStep_backtick {content : Text} {st : ScanLoop} {rest : Text}
    (h : content.drop st.cursor.i = c :: rest) (hkind : (lexemeAt u (c :: rest)).1 = .backtick)
    : scanStep u content st = .inr st := by
  have hc : c = '`' := by
    by_contra hc
    rw [lexemeAt] at hkind
    grind
  subst hc
  unfold scanStep
  simp [h, isWordStart, scanWhile, isWordPart, u.isAlphanumeric_ascii '`' (by decide), keywords]

/-! ## The whole scan -/

def placed : LineCol → List Lexeme → List RawToken
  | _, [] => []
  | p, x :: xs => x.tokenAt p ++ placed (x.leave p) xs

variable {content : Text} {st : ScanLoop}

theorem Takes.drop_eq {x : Lexeme} {st' : ScanLoop} (h : Takes x st st')
    : content.drop st'.cursor.i = (content.drop st.cursor.i).drop x.text.length := by
  rw [h.i_eq, List.drop_drop]

theorem climb_scanStep (h : ∀ x ∈ lexemes u (content.drop st.cursor.i), x.kind ≠ .backtick)
    {fuel : Nat} (hfuel : (content.drop st.cursor.i).length < fuel)
    : climb (scanStep u content) fuel st
        = some (st.raw ++ placed st.cursor.position (lexemes u (content.drop st.cursor.i))) := by
  generalize hs : content.drop st.cursor.i = s at h hfuel ⊢
  induction s using lexemes_induction u generalizing st fuel with
  | nil =>
    obtain ⟨more, rfl⟩ : ∃ more, fuel = more + 1 := ⟨fuel - 1, by omega⟩
    have hstep : scanStep u content st = .inl st.raw := by
      unfold scanStep
      simp only [hs]
    rw [climb, hstep]
    exact congrArg some (List.append_nil _).symm
  | cons c s ih =>
    obtain ⟨more, rfl⟩ : ∃ more, fuel = more + 1 := ⟨fuel - 1, by omega⟩
    rw [lexemes_cons, List.forall_mem_cons] at h
    obtain ⟨st', hstep, htakes⟩ := scanStep_takes u hs h.1
    have hrest : content.drop st'.cursor.i = (c :: s).drop (lexemeOf u (c :: s)).text.length := by
      rw [htakes.drop_eq, hs]
    have hpos := length_lexemeOf_pos u c s
    have hlength : ((c :: s).drop (lexemeOf u (c :: s)).text.length).length < more := by
      rw [List.length_drop]
      rw [List.length_cons] at hfuel ⊢
      omega
    rw [climb, hstep, lexemes_cons, placed, ← List.append_assoc, ← htakes.raw_eq,
      ← htakes.position_eq]
    exact ih hrest h.2 hlength

theorem reaches_backtick (h : ∃ x ∈ lexemes u (content.drop st.cursor.i), x.kind = .backtick)
    : ∃ st', Relation.ReflTransGen (Goes (scanStep u content)) st st'
        ∧ scanStep u content st' = .inr st' := by
  generalize hs : content.drop st.cursor.i = s at h
  induction s using lexemes_induction u generalizing st with
  | nil =>
    obtain ⟨x, hx, _⟩ := h
    contradiction
  | cons c s ih =>
    by_cases hkind : (lexemeAt u (c :: s)).1 = .backtick
    . exact ⟨st, .refl, scanStep_backtick u hs hkind⟩
    . obtain ⟨st', hstep, htakes⟩ := scanStep_takes u hs hkind
      have hrest : content.drop st'.cursor.i = (c :: s).drop (lexemeOf u (c :: s)).text.length := by
        rw [htakes.drop_eq, hs]
      rw [lexemes_cons] at h
      obtain ⟨x, hx, htick⟩ := h
      rcases List.mem_cons.mp hx with rfl | hx
      . exact absurd htick hkind
      . obtain ⟨st'', hreach, hfixed⟩ := ih hrest ⟨x, hx, htick⟩
        exact ⟨st'', .head hstep hreach, hfixed⟩

theorem scan_of_noBacktick (h : ∀ x ∈ lexemes u content, x.kind ≠ .backtick)
    : scan u (content.length + 1) content = some (placed ⟨0, 0⟩ (lexemes u content)) :=
  climb_scanStep h (Nat.lt_succ_self _)

theorem noBacktick_of_goes {st' : ScanLoop}
    (h : ∀ x ∈ lexemes u (content.drop st.cursor.i), x.kind ≠ .backtick)
    (hstep : scanStep u content st = .inr st')
    : st.cursor.i < st'.cursor.i ∧ ∀ x ∈ lexemes u (content.drop st'.cursor.i),
        x.kind ≠ .backtick := by
  cases hs : content.drop st.cursor.i with
  | nil =>
    unfold scanStep at hstep
    simp [hs] at hstep
  | cons c s =>
    rw [hs, lexemes_cons, List.forall_mem_cons] at h
    obtain ⟨st'', hstep', htakes⟩ := scanStep_takes u hs h.1
    obtain rfl := Sum.inr.inj (hstep'.symm.trans hstep)
    have hpos := length_lexemeOf_pos u c s
    rw [htakes.drop_eq, hs]
    exact ⟨by rw [htakes.i_eq]; omega, h.2⟩

variable (u content) in
/-- Every round moves the index on, and there are at most as many rounds as characters. -/
structure ScanAdvances : Prop where
  advances : ∀ st st', Relation.ReflTransGen (Goes (scanStep u content)) scanStart st →
    scanStep u content st = .inr st' → st.cursor.i < st'.cursor.i
  ends : (scan u (content.length + 1) content).isSome

variable (u content) in
/--
The scan advances and ends if and only if no backtick is outside the comments and strings of the
document.
-/
theorem scanAdvances_iff : ScanAdvances u content
    ↔ ∀ x ∈ lexemes u content, x.kind ≠ .backtick := by
  constructor
  . intro h x hx hkind
    have hreaches : ∃ st, Relation.ReflTransGen (Goes (scanStep u content)) scanStart st
        ∧ scanStep u content st = .inr st :=
      reaches_backtick ⟨x, hx, hkind⟩
    obtain ⟨st, hreach, hfixed⟩ := hreaches
    exact Nat.lt_irrefl _ (h.advances st st hreach hfixed)
  . intro h
    constructor
    case advances =>
      intro st st' hreach hstep
      have hst : ∀ x ∈ lexemes u (content.drop st.cursor.i), x.kind ≠ .backtick := by
        clear hstep
        induction hreach with
        | refl => exact h
        | tail _ hstep ih => exact (noBacktick_of_goes ih hstep).2
      exact (noBacktick_of_goes hst hstep).1
    case ends =>
      rw [scan_of_noBacktick h]
      rfl

end

theorem not_scanAdvances_define : ¬∀ content : Text, ScanAdvances Unicode.ascii content := by
  intro h
  have hnone := (scanAdvances_iff _ _).mp (h "`define W 8".toList)
  revert hnone
  decide

end Lsp
end HdlGraph
