import HdlGraph.Library.Text

/-!
This module contains regular expressions that are sequences of characters, `.` and `.*`, what they
accept, and what is relied on of a library that searches for them without regard to case.
-/

namespace Regex

inductive Piece where
  | any
  | anyMany
  | char (c : Char)
  deriving DecidableEq, Repr

def metaChars : Text := ['\\', '.', '+', '*', '?', '(', ')', '|', '[', ']', '{', '}', '^', '$']

def Piece.source : Piece → Text
  | any => ['.']
  | anyMany => ['.', '*']
  | char c => if c ∈ metaChars then ['\\', c] else [c]

def source (ps : List Piece) : Text := ps.flatMap Piece.source

-- `.` is any character other than the line feed
def Accepts (same : Char → Char → Prop) : List Piece → Text → Prop
  | [], s => s = []
  | .any :: ps, s => ∃ c rest, s = c :: rest ∧ c ≠ '\n' ∧ Accepts same ps rest
  | .anyMany :: ps, s => ∃ front rest, s = front ++ rest ∧ '\n' ∉ front ∧ Accepts same ps rest
  | .char c :: ps, s => ∃ d rest, s = d :: rest ∧ same c d ∧ Accepts same ps rest

/--
A library of regular expressions. With the flag for case-insensitivity an expression matches a text
if it accepts some part of it, where letters that differ in case only are the same.
-/
structure Engine where
  new : Text → Option (Text → Bool)
  sameLetter : Char → Char → Prop
  sameLetter_ascii : ∀ c d : Char, c.toLower = d.toLower → sameLetter c d
  new_source : ∀ ps, ∃ isMatch, new ("(?i)".toList ++ source ps) = some isMatch
    ∧ ∀ s, isMatch s = true ↔ ∃ part, part <:+: s ∧ Accepts sameLetter ps part

/-! ## An engine that knows the case of ASCII letters -/

def pieces : Text → List Piece
  | '.' :: '*' :: s => .anyMany :: pieces s
  | '.' :: s => .any :: pieces s
  | '\\' :: c :: s => .char c :: pieces s
  | c :: s => .char c :: pieces s
  | [] => []

theorem head?_source_ne (ps : List Piece) : (source ps).head? ≠ some '*' := by
  cases ps with
  | nil => simp [source]
  | cons p ps =>
    cases p with
    | any => simp [source, Piece.source]
    | anyMany => simp [source, Piece.source]
    | char c =>
      by_cases hc : c ∈ metaChars
      . simp [source, Piece.source, hc]
      . have hne : c ≠ '*' := by
          rintro rfl
          exact hc (by decide)
        simp [source, Piece.source, hc, hne]

theorem pieces_source (ps : List Piece) : pieces (source ps) = ps := by
  induction ps with
  | nil => rfl
  | cons p ps ih =>
    have hcons : source (p :: ps) = p.source ++ source ps := rfl
    rw [hcons]
    cases p with
    | any =>
      have hhead := head?_source_ne ps
      rw [Piece.source, List.singleton_append, pieces, ih]
      intro s hs
      rw [hs] at hhead
      exact hhead rfl
    | anyMany => rw [Piece.source, List.cons_append, List.singleton_append, pieces, ih]
    | char c =>
      rw [Piece.source]
      split
      . rw [List.cons_append, List.singleton_append, pieces, ih]
      . next hc =>
        have hdot : c ≠ '.' := fun heq => hc (heq ▸ by decide)
        have hback : c ≠ '\\' := fun heq => hc (heq ▸ by decide)
        rw [List.singleton_append, pieces, ih]
        . exact fun s heq => absurd heq hdot
        . exact fun heq => absurd heq hdot
        . exact fun d s heq => absurd heq hback

def skips : Text → List Text
  | [] => [[]]
  | c :: s => (c :: s) :: if c = '\n' then [] else skips s

def acceptsFront (same : Char → Char → Prop) [DecidableRel same] : List Piece → Text → Bool
  | [], _ => true
  | .any :: ps, c :: s => c ≠ '\n' && acceptsFront same ps s
  | .anyMany :: ps, s => (skips s).any (acceptsFront same ps)
  | .char c :: ps, d :: s => same c d && acceptsFront same ps s
  | _ :: _, [] => false

theorem mem_skips_iff {s rest : Text}
    : rest ∈ skips s ↔ ∃ front, s = front ++ rest ∧ '\n' ∉ front := by
  induction s with
  | nil => simp [skips, eq_comm]
  | cons c s ih =>
    rw [skips, List.mem_cons]
    constructor
    . rintro (rfl | hrest)
      . exact ⟨[], rfl, List.not_mem_nil⟩
      . split at hrest
        . contradiction
        . next hc =>
          obtain ⟨front, rfl, hfront⟩ := ih.mp hrest
          exact ⟨c :: front, rfl, List.not_mem_cons_of_ne_of_not_mem (Ne.symm hc) hfront⟩
    . rintro ⟨front, heq, hfront⟩
      cases front with
      | nil => exact .inl heq.symm
      | cons d front =>
        obtain ⟨rfl, rfl⟩ := List.cons.inj heq
        rw [if_neg (List.ne_of_not_mem_cons hfront).symm]
        exact .inr (ih.mpr ⟨front, rfl, List.not_mem_of_not_mem_cons hfront⟩)

theorem exists_front_cons_iff {c : Char} {s : Text} {P : Char → Prop} {Q : Text → Prop}
    : (∃ part back, c :: s = part ++ back ∧ ∃ d rest, part = d :: rest ∧ P d ∧ Q rest)
        ↔ P c ∧ ∃ part back, s = part ++ back ∧ Q part := by
  constructor
  . rintro ⟨_, back, heq, d, rest, rfl, hd, hrest⟩
    obtain ⟨rfl, rfl⟩ := List.cons.inj heq
    exact ⟨hd, rest, back, rfl, hrest⟩
  . rintro ⟨hc, part, back, rfl, hpart⟩
    exact ⟨c :: part, back, rfl, c, part, rfl, hc, hpart⟩

theorem acceptsFront_iff {same : Char → Char → Prop} [DecidableRel same]
    {ps : List Piece} {s : Text}
    : acceptsFront same ps s = true ↔ ∃ part back, s = part ++ back ∧ Accepts same ps part := by
  induction ps generalizing s with
  | nil => simp [acceptsFront, Accepts]
  | cons p ps ih =>
    cases p with
    | any =>
      cases s with
      | nil => simp [acceptsFront, Accepts]
      | cons c s =>
        simp only [Accepts, exists_front_cons_iff]
        rw [acceptsFront, Bool.and_eq_true, ih, decide_eq_true_eq]
    | anyMany =>
      simp only [acceptsFront, List.any_eq_true, mem_skips_iff, ih, Accepts]
      constructor
      . rintro ⟨_, ⟨front, rfl, hfront⟩, part, back, rfl, hpart⟩
        exact ⟨front ++ part, back, (List.append_assoc _ _ _).symm, front, part, rfl, hfront, hpart⟩
      . rintro ⟨_, back, rfl, front, part, rfl, hfront, hpart⟩
        exact ⟨part ++ back, ⟨front, List.append_assoc _ _ _, hfront⟩, part, back, rfl, hpart⟩
    | char c =>
      cases s with
      | nil => simp [acceptsFront, Accepts]
      | cons d s =>
        simp only [Accepts, exists_front_cons_iff]
        rw [acceptsFront, Bool.and_eq_true, ih, decide_eq_true_eq]

def asciiSame (c d : Char) : Prop := c.toLower = d.toLower

instance : DecidableRel asciiSame := fun _ _ => inferInstanceAs (Decidable (_ = _))

def Engine.ascii : Engine where
  new regex := (Text.stripPrefix? "(?i)".toList regex).map fun body s =>
    s.tails.any (acceptsFront asciiSame (pieces body))
  sameLetter := asciiSame
  sameLetter_ascii _ _ h := h
  new_source ps := by
    have hstrip : Text.stripPrefix? "(?i)".toList ("(?i)".toList ++ source ps)
        = some (source ps) := by
      rw [Text.stripPrefix?, if_pos (List.isPrefixOf_iff_prefix.mpr (List.prefix_append _ _)),
        List.drop_left]
    refine ⟨_, congrArg (Option.map _) hstrip, ?_⟩
    intro s
    simp only [pieces_source, List.any_eq_true, List.mem_tails, acceptsFront_iff]
    constructor
    . rintro ⟨_, ⟨front, rfl⟩, part, back, rfl, hpart⟩
      exact ⟨part, ⟨front, back, List.append_assoc _ _ _⟩, hpart⟩
    . rintro ⟨part, ⟨front, back, rfl⟩, hpart⟩
      exact ⟨part ++ back, ⟨front, (List.append_assoc _ _ _).symm⟩, part, back, rfl, hpart⟩

end Regex
